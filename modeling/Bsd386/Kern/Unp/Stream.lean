import Bsd386.Kern.Sockbuf.Runs

/-!
# Back pressure between connected Unix stream sockets

A stream socket of the Unix domain keeps copies `unp_cc` and `unp_mbcnt` of the counts of its
receive buffer. `PRU_SEND` at one end and `PRU_RCVD` at the other charge the difference between
copy and count to the limits `sb_hiwat` and `sb_mbmax` of the sender's send buffer. All fields are
32 bits wide and the differences are taken in that arithmetic, so a limit may pass through zero.
-/

namespace Bsd386.Kern.Unp.Stream

open Kern.Sockbuf Lib.Transition

/-- The two ends of the connection. Source: unp_connect2 -/
inductive Side where
  | fst | snd
deriving DecidableEq

/-- The other end. Source: unpcb.h unp_conn -/
def Side.peer : Side → Side
  | .fst => .snd
  | .snd => .fst

/-- What the two requests read and write of a socket and its control block. `sndHiwat` and
`sndMbmax` are the limits of `so_snd`, `cantSend` is `SS_CANTSENDMORE`.
Source: socketvar.h struct socket, unpcb.h struct unpcb -/
structure Sock where
  rcv : Sockbuf
  sndHiwat : BitVec 32
  sndMbmax : BitVec 32
  cantSend : Bool
  unpCc : BitVec 32
  unpMbcnt : BitVec 32

/-- A connected pair of stream sockets. Source: unp_connect2 -/
abbrev Pair := Side → Sock

/-- Errors of the requests. -/
inductive Errno where
  | einval | ebadf | epipe
deriving DecidableEq

/-- `PRU_SEND` at the end `a`: put the data, with the control data if there is any, into the
receive buffer of the other end and charge its growth to the limits of `a`. `control` is what
`unp_internalize` makes of the control chain. The second component is the state after the call,
whether it fails or not. When `sbappendcontrol` finds no space nothing is appended and the call
goes on.
Source: uipc_usrreq, PRU_SEND -/
def pruSend (p : Pair) (a : Side) (m : List Mbuf) (control : Option (Except Errno (List Mbuf))) :
    Except Panic (Option Errno × Pair) :=
  match control with
  | some (.error e) => .ok (some e, p)
  | some (.ok ctl) =>
    if (p a).cantSend then .ok (some .epipe, p)
    else (sbappendcontrol (p a.peer).rcv m ctl).map fun r => (none, charge r.2)
  | none =>
    if (p a).cantSend then .ok (some .epipe, p)
    else .ok (none, charge (sbappend (p a.peer).rcv m))
where
  /-- Reduce the send buffer's marks by the growth of the receive buffer `rcv`, and copy its
  counts. -/
  charge (rcv : Sockbuf) : Pair := fun x =>
    if x = a then
      { p a with
        sndMbmax := (p a).sndMbmax - (rcv.cnt.mbcnt - (p a.peer).unpMbcnt)
        sndHiwat := (p a).sndHiwat - (rcv.cnt.cc - (p a.peer).unpCc) }
    else { p a.peer with rcv := rcv, unpMbcnt := rcv.cnt.mbcnt, unpCc := rcv.cnt.cc }

/-- `PRU_RCVD` at the end `b`: adjust back pressure on the sender.
Source: uipc_usrreq, PRU_RCVD -/
def pruRcvd (p : Pair) (b : Side) : Pair := fun x =>
  if x = b then { p b with unpMbcnt := (p b).rcv.cnt.mbcnt, unpCc := (p b).rcv.cnt.cc }
  else
    { p b.peer with
      sndMbmax := (p b.peer).sndMbmax + ((p b).unpMbcnt - (p b).rcv.cnt.mbcnt)
      sndHiwat := (p b.peer).sndHiwat + ((p b).unpCc - (p b).rcv.cnt.cc) }

/-- Data is taken out of the receive buffer of `b`: it is some other buffer afterwards.
Source: soreceive -/
def remove (p : Pair) (b : Side) (rcv : Sockbuf) : Pair := fun x =>
  if x = b then { p b with rcv := rcv } else p b.peer

/-! ## Properties of a state -/

/-- The copies at the end `b` are the counts of its receive buffer.
Source: unpcb.h unp_cc, unp_mbcnt -/
def Recorded (p : Pair) (b : Side) : Prop :=
  (p b).unpCc = (p b).rcv.cnt.cc ∧ (p b).unpMbcnt = (p b).rcv.cnt.mbcnt

/-- The sender's limits plus the receiver's copies are in `q` what they are in `p`.
Source: PIPSIZ -/
def Conserved (p q : Pair) : Prop :=
  ∀ b : Side,
    (q b.peer).sndHiwat + (q b).unpCc = (p b.peer).sndHiwat + (p b).unpCc ∧
    (q b.peer).sndMbmax + (q b).unpMbcnt = (p b.peer).sndMbmax + (p b).unpMbcnt

/-! ## The requests -/

section requests

@[simp] theorem Side.peer_peer (a : Side) : a.peer.peer = a := by cases a <;> rfl

theorem Side.peer_ne (a : Side) : a.peer ≠ a := by cases a <;> decide

theorem Side.eq_peer_of_ne {a b : Side} (h : b ≠ a) : b = a.peer := by
  cases a <;> cases b <;> first | rfl | exact absurd rfl h

variable {p q : Pair} {a b : Side} {m : List Mbuf} {control : Option (Except Errno (List Mbuf))}

theorem pruSend_cases {e : Option Errno} (h : pruSend p a m control = .ok (e, q)) :
    (e ≠ none ∧ q = p) ∨ (e = none ∧ ∃ rcv, q = pruSend.charge p a rcv) := by
  unfold pruSend at h
  split at h
  · obtain ⟨rfl, rfl⟩ := Prod.mk.inj (Except.ok.inj h)
    exact .inl ⟨by simp, rfl⟩
  · split at h
    · obtain ⟨rfl, rfl⟩ := Prod.mk.inj (Except.ok.inj h)
      exact .inl ⟨by simp, rfl⟩
    · next ctl _ =>
        cases hc : sbappendcontrol (p a.peer).rcv m ctl with
        | error e' =>
          rw [hc] at h
          exact absurd h (by simp [Except.map])
        | ok r =>
          rw [hc] at h
          obtain ⟨rfl, rfl⟩ := Prod.mk.inj (Except.ok.inj h)
          exact .inr ⟨rfl, _, rfl⟩
  · split at h
    · obtain ⟨rfl, rfl⟩ := Prod.mk.inj (Except.ok.inj h)
      exact .inl ⟨by simp, rfl⟩
    · obtain ⟨rfl, rfl⟩ := Prod.mk.inj (Except.ok.inj h)
      exact .inr ⟨rfl, _, rfl⟩

theorem sub_growth_add (l c u : BitVec 32) : l - (c - u) + c = l + u := by bv_omega

theorem add_shrink_add (l u c : BitVec 32) : l + (u - c) + c = l + u := by
  rw [BitVec.add_assoc, BitVec.sub_add_cancel]

theorem conserved_charge (p : Pair) (a : Side) (rcv : Sockbuf) :
    Conserved p (pruSend.charge p a rcv) := by
  intro b
  by_cases hb : b = a
  · subst hb
    have hne : b.peer ≠ b := b.peer_ne
    simp only [pruSend.charge, if_neg hne, if_true, and_self]
  · obtain rfl := Side.eq_peer_of_ne hb
    simp only [pruSend.charge, Side.peer_peer, if_true, if_neg hb]
    exact ⟨sub_growth_add _ _ _, sub_growth_add _ _ _⟩

theorem recorded_charge (p : Pair) (a : Side) (rcv : Sockbuf) :
    Recorded (pruSend.charge p a rcv) a.peer := by
  simp only [Recorded, pruSend.charge, if_neg a.peer_ne, and_self]

theorem recorded_charge_self {rcv : Sockbuf} (h : Recorded p a) :
    Recorded (pruSend.charge p a rcv) a := by
  simpa only [Recorded, pruSend.charge, if_true] using h

theorem conserved_pruRcvd (p : Pair) (a : Side) : Conserved p (pruRcvd p a) := by
  intro b
  by_cases hb : b = a
  · subst hb
    have hne : b.peer ≠ b := b.peer_ne
    simp only [pruRcvd, if_neg hne, if_true]
    exact ⟨add_shrink_add _ _ _, add_shrink_add _ _ _⟩
  · obtain rfl := Side.eq_peer_of_ne hb
    simp only [pruRcvd, Side.peer_peer, if_true, if_neg hb, and_self]

theorem recorded_pruRcvd (p : Pair) (b : Side) : Recorded (pruRcvd p b) b := by
  simp only [Recorded, pruRcvd, if_true, and_self]

theorem recorded_pruRcvd_peer (h : Recorded p b.peer) : Recorded (pruRcvd p b) b.peer := by
  simpa only [Recorded, pruRcvd, if_neg b.peer_ne] using h

theorem conserved_remove (p : Pair) (a : Side) (rcv : Sockbuf) :
    Conserved p (remove p a rcv) := by
  intro b
  by_cases hb : b = a
  · subst hb
    simp only [remove, if_neg b.peer_ne, if_true, and_self]
  · obtain rfl := Side.eq_peer_of_ne hb
    simp only [remove, Side.peer_peer, if_true, if_neg hb, and_self]

theorem recorded_remove_peer {rcv : Sockbuf} (h : Recorded p b.peer) :
    Recorded (remove p b rcv) b.peer := by
  simpa only [Recorded, remove, if_neg b.peer_ne] using h

theorem Conserved.trans {r : Pair} (h : Conserved p q) (h' : Conserved q r) : Conserved p r :=
  fun b => ⟨(h' b).1.trans (h b).1, (h' b).2.trans (h b).2⟩

end requests

/-! ## Runs -/

/-- One call, or one change of a receive buffer between calls: a reader may take data out of its
buffer, and sleep, before it makes its `PRU_RCVD` call.
Source: sosend, soreceive -/
inductive Next : Pair → Pair → Prop where
  | send {p q : Pair} (a : Side) (m : List Mbuf) (control : Option (Except Errno (List Mbuf)))
      (e : Option Errno) (h : pruSend p a m control = .ok (e, q)) : Next p q
  | rcvd (p : Pair) (b : Side) : Next p (pruRcvd p b)
  | remove (p : Pair) (b : Side) (rcv : Sockbuf) : Next p (remove p b rcv)

/-- The same, when each removal is reported by its `PRU_RCVD` before the next call.
Source: sosend, soreceive -/
inductive NextCall : Pair → Pair → Prop where
  | send {p q : Pair} (a : Side) (m : List Mbuf) (control : Option (Except Errno (List Mbuf)))
      (e : Option Errno) (h : pruSend p a m control = .ok (e, q)) : NextCall p q
  | rcvd (p : Pair) (b : Side) (rcv : Sockbuf) : NextCall p (pruRcvd (remove p b rcv) b)

theorem conserved_of_reach {p q : Pair} (h : Reach (· = p) Next q) : Conserved p q := by
  refine Reach.invariant (I := Conserved p) ?_ ?_ h
  · rintro q rfl b
    exact ⟨rfl, rfl⟩
  · rintro q r - hq hnext
    refine hq.trans ?_
    cases hnext with
    | send a m control e h =>
      obtain ⟨-, rfl⟩ | ⟨-, rcv, rfl⟩ := pruSend_cases h
      · exact fun b => ⟨rfl, rfl⟩
      · exact conserved_charge q _ rcv
    | rcvd => exact conserved_pruRcvd q _
    | remove => exact conserved_remove q _ _

theorem reach_of_reachCall {p q : Pair} (h : Reach (· = p) NextCall q) :
    Reach (· = p) Next q := by
  induction h with
  | start hs => exact .start hs
  | step _ hnext ih =>
    cases hnext with
    | send a m control e h => exact .step ih (.send a m control e h)
    | rcvd b rcv => exact .step (.step ih (.remove _ b rcv)) (.rcvd _ b)

theorem recorded_of_reachCall {p q : Pair} (hp : ∀ b, Recorded p b)
    (h : Reach (· = p) NextCall q) (b : Side) : Recorded q b := by
  refine Reach.invariant (I := fun q => ∀ b, Recorded q b) ?_ ?_ h b
  · rintro q rfl
    exact hp
  · rintro q r - hq hnext b
    cases hnext with
    | send a m control e h =>
      obtain ⟨-, rfl⟩ | ⟨-, rcv, rfl⟩ := pruSend_cases h
      · exact hq b
      by_cases hb : b = a
      · subst hb
        exact recorded_charge_self (hq b)
      · obtain rfl := Side.eq_peer_of_ne hb
        exact recorded_charge q a rcv
    | rcvd a rcv =>
      by_cases hb : b = a
      · subst hb
        exact recorded_pruRcvd _ b
      · obtain rfl := Side.eq_peer_of_ne hb
        exact recorded_pruRcvd_peer (recorded_remove_peer (hq a.peer))

/-- **Back pressure is conserved.** From a connected pair whose copies are the counts, in any
interleaving of `PRU_SEND` and `PRU_RCVD` calls at either end, each `PRU_RCVD` after some removal
from the receive buffer: the receiver's `unp_cc` and `unp_mbcnt` are the counts of its receive
buffer after each call, and the sender's `sb_hiwat` plus `unp_cc` and its `sb_mbmax` plus
`unp_mbcnt` keep their initial values. When removals and their `PRU_RCVD` calls are not adjacent,
the sums still keep their values in every state, and the copies are the counts after every
`PRU_RCVD` and after every `PRU_SEND` that is not refused.
Source: uipc_usrreq, PRU_SEND, PRU_RCVD. Kind: C -/
theorem backpressure_conserved {p : Pair} (hp : ∀ b, Recorded p b) :
    (∀ q, Reach (· = p) NextCall q → (∀ b, Recorded q b) ∧ Conserved p q) ∧
    (∀ q, Reach (· = p) Next q → Conserved p q ∧ (∀ b, Recorded (pruRcvd q b) b) ∧
      ∀ a m control r, pruSend q a m control = .ok (none, r) → Recorded r a.peer) := by
  refine ⟨fun q hq => ⟨recorded_of_reachCall hp hq, conserved_of_reach (reach_of_reachCall hq)⟩,
    fun q hq => ⟨conserved_of_reach hq, recorded_pruRcvd q, fun a m control r h => ?_⟩⟩
  obtain ⟨hne, -⟩ | ⟨-, rcv, rfl⟩ := pruSend_cases h
  · exact absurd rfl hne
  · exact recorded_charge q a rcv

/-- Two sockets as `unp_connect2` leaves them. Source: unp_connect2,
PIPSIZ -/
def freshPair : Pair := fun _ => ⟨empty 4096 8192, 4096, 8192, false, 0, 0⟩

/-- After a `PRU_SEND` of two bytes and a `PRU_RCVD` of both the sender has its limits back. Kind: C -/
theorem backpressure_conserved_send_rcvd :
    ∃ p q : Pair, pruSend freshPair .fst [twoBytes] none = .ok (none, p) ∧
      (p .fst).sndHiwat = 4094 ∧ q = pruRcvd (remove p .snd (empty 4096 8192)) .snd ∧
      (q .fst).sndHiwat = 4096 ∧ (q .fst).sndMbmax = 8192 := by
  have hfresh : ∀ b, Recorded freshPair b := fun _ => ⟨rfl, rfl⟩
  obtain ⟨p, hp⟩ : ∃ p, pruSend freshPair .fst [twoBytes] none = .ok (none, p) := ⟨_, rfl⟩
  obtain ⟨q, hq⟩ : ∃ q, q = pruRcvd (remove p .snd (empty 4096 8192)) .snd := ⟨_, rfl⟩
  have hlow : (p .fst).sndHiwat = 4094 := by
    obtain rfl := (Prod.mk.inj (Except.ok.inj hp)).2
    decide
  have hcc : (q .snd).unpCc = 0#32 ∧ (q .snd).unpMbcnt = 0#32 := by rw [hq]; exact ⟨rfl, rfl⟩
  obtain ⟨-, hcons⟩ := (backpressure_conserved hfresh).1 q
    (hq ▸ .step (.step (.start rfl) (.send _ _ _ _ hp)) (.rcvd _ .snd (empty 4096 8192)))
  obtain ⟨hhi, hmax⟩ := hcons .snd
  rw [hcc.1, BitVec.add_zero] at hhi
  rw [hcc.2, BitVec.add_zero] at hmax
  exact ⟨p, q, hp, hlow, hq, hhi.trans (by decide), hmax.trans (by decide)⟩

end Bsd386.Kern.Unp.Stream
