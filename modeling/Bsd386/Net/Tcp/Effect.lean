import Bsd386.Net.Tcp.Sender
import Mathlib.Data.BitVec
import Mathlib.Tactic.Ring

/-!
# The effect of TCP output

What a pass of `tcp_output` does to the send sequence variables: each of its parts on the `Core` of the
control block, and from these the segment and the core it leaves (`send_of_mgethdr`). Sequence numbers
are counted from one of them (`at'`), so that the comparisons of the source are those of numbers.
-/

namespace Bsd386.Net.Tcp

open BitVec

/-! ## Sequence numbers counted from one of them -/

/-- The number `k` after `una`. -/
def at' (una : BitVec 32) (k : ℕ) : BitVec 32 := una + BitVec.ofNat 32 k

section seq

variable {una : BitVec 32} {a b : ℕ}

theorem at'_zero (una : BitVec 32) : at' una 0 = una := BitVec.add_zero una

theorem at'_add (una : BitVec 32) (a b : ℕ) : at' una a + BitVec.ofNat 32 b = at' una (a + b) := by
  unfold at'
  rw [ofNat_add, add_assoc]

theorem at'_at' (una : BitVec 32) (a b : ℕ) : at' (at' una a) b = at' una (a + b) := at'_add una a b

theorem at'_succ_sub_one (una : BitVec 32) (a : ℕ) : at' una (a + 1) - 1 = at' una a := by
  rw [← at'_add]
  exact add_sub_cancel _ _

theorem at'_sub (una : BitVec 32) (a b : ℕ) :
    at' una a - at' una b = BitVec.ofNat 32 a - BitVec.ofNat 32 b := by
  unfold at'
  ring

section

variable (ha : a < 2 ^ 31) (hb : b < 2 ^ 31)
include ha hb

theorem toInt_at'_sub :
    (at' una a - at' una b).toInt = (a : ℤ) - b := by
  rw [at'_sub, toInt_eq_toNat_cond, toNat_sub, toNat_ofNat, toNat_ofNat]
  split <;> omega

theorem seqLt_at' :
    seqLt (at' una a) (at' una b) = decide (a < b) := by
  rw [seqLt, toInt_at'_sub ha hb]
  exact decide_eq_decide.mpr (by omega)

theorem seqGt_at' :
    seqGt (at' una a) (at' una b) = decide (b < a) := by
  rw [seqGt, toInt_at'_sub ha hb]
  exact decide_eq_decide.mpr (by omega)

theorem at'_inj : at' una a = at' una b ↔ a = b := by
  constructor
  · intro h
    have := @toInt_at'_sub una a b ha hb
    rw [h, BitVec.sub_self, BitVec.toInt_zero] at this
    omega
  · rintro rfl
    rfl

end

end seq

/-! ## What `tcp_output` does to the core of a control block -/

/-- `resendFin` on the core. Source: tcp_output -/
def Core.resend (k : Core) (fin : Bool) : Core :=
  if fin ∧ k.tfSentfin ∧ k.sndNxt = k.sndMax then { k with sndNxt := k.sndNxt - 1 } else k

section core

variable (tp : Tcpcb)

theorem core_forceWin (win : ℕ) : (forceWin tp win).1.core = tp.core := by
  unfold forceWin
  split_ifs <;> rfl

theorem core_pullBack (len : ℤ) (win : ℕ) : (pullBack tp len win).core =
    { tp.core with sndNxt := if len < 0 ∧ win = 0 then tp.sndUna else tp.sndNxt } := by
  unfold pullBack
  split_ifs <;> rfl

theorem core_noSend (so : Socket) : (noSend tp so).core = tp.core := by
  unfold noSend
  split_ifs <;> rfl

theorem core_resendFin (fin : Bool) : (resendFin tp fin).core = tp.core.resend fin := by
  by_cases h : fin ∧ tp.tfSentfin ∧ tp.sndNxt = tp.sndMax
  · rw [resendFin, if_pos h]
    exact (if_pos h).symm
  · rw [resendFin, if_neg h]
    exact (if_neg h).symm

theorem core_dragUrgent : (dragUrgent tp).core = tp.core := by
  unfold dragUrgent
  split_ifs <;> rfl

theorem core_raiseMax (startseq : BitVec 32) : (raiseMax tp startseq).core =
    { tp.core with sndMax := if seqGt tp.sndNxt tp.sndMax then tp.sndNxt else tp.sndMax } := by
  unfold raiseMax
  dsimp only
  split_ifs <;> rfl

theorem core_setRexmt : (setRexmt tp).core = tp.core := by
  unfold setRexmt
  dsimp only
  split_ifs <;> rfl

theorem core_sent (win : ℤ) (e : IpError) : (sent tp win e).core = tp.core := by
  cases e with
  | unreach errno =>
    unfold sent
    split_ifs <;> rfl
  | _ => rfl

/-- `advance` on the core. Source: tcp_output -/
def Core.advance (k : Core) (transmit syn fin : Bool) (len : ℕ) : Core :=
  if transmit then
    let nxt := k.sndNxt + (if syn then 1 else 0) + (if fin then 1 else 0) + BitVec.ofNat 32 len
    { k with
      sndNxt := nxt
      sndMax := if seqGt nxt k.sndMax then nxt else k.sndMax
      tfSentfin := k.tfSentfin || fin }
  else
    { k with sndMax := if seqGt (k.sndNxt + BitVec.ofNat 32 len) k.sndMax then
        k.sndNxt + BitVec.ofNat 32 len else k.sndMax }

/-- Whether a pass is in transmit state. Source: tcp_output -/
def transmits (tp : Tcpcb) : Bool := tp.tForce = false ∨ tp.tTimer.persist = 0

theorem core_advance (flags : Flags) (len : ℕ) :
    (advance tp flags len).core = tp.core.advance (transmits tp) flags.syn flags.fin len := by
  unfold advance Core.advance transmits
  by_cases h : tp.tForce = false ∨ tp.tTimer.persist = 0
  · rw [if_pos h, if_pos (decide_eq_true h)]
    rw [core_setRexmt, core_raiseMax]
    rfl
  rw [if_neg h, decide_eq_false h]
  by_cases hgt : seqGt (tp.sndNxt + BitVec.ofNat 32 len) tp.sndMax = true
  · rw [if_pos hgt]
    simp only [Tcpcb.core, hgt, if_true]
    rfl
  · rw [if_neg hgt]
    simp only [Tcpcb.core, hgt]
    rfl

end core

/-- The core when the segment is built: SYN goes back to `iss`, and a FIN sent again to its number.
Source: tcp_output -/
def Core.start (k : Core) (syn fin : Bool) : Core :=
  (if syn then { k with sndNxt := k.iss } else k).resend fin

/-- Whether the data of a segment gets to it: it fits in the header mbuf, or `m_copy` finds mbufs, or
there is none.
Source: tcp_output -/
def DataKept (p : Plan) (optlen : ℕ) (o : Outcome) : Prop :=
  (p.len : ℤ) ≤ mhlen - (40 + optlen) - o.maxLinkhdr ∨ o.mCopy = true ∨ p.len = 0

section send

variable {tp : Tcpcb} {so : Socket} {p : Plan} {o : Outcome}

theorem send_of_mgethdr_eq_false (h : o.mgethdr = false) :
    (send tp so p o).conn.tp.core =
        (if p.flags.syn then { tp.core with sndNxt := tp.iss } else tp.core) ∧
      (send tp so p o).conn.so.soSnd = so.soSnd ∧ (send tp so p o).segment = none ∧
        (send tp so p o).again = false := by
  unfold send
  rw [if_pos h]
  refine ⟨?_, ?_, rfl, rfl⟩
  · by_cases hsyn : p.flags.syn <;> by_cases hopt : tp.tfNoopt <;> simp [hsyn, hopt] <;> rfl
  · dsimp only
    split_ifs <;> rfl

theorem core_options (syn options : Bool) (m : Mss) :
    (if options then tcpMss (if syn then { tp with sndNxt := tp.iss } else tp) m
      else if syn then { tp with sndNxt := tp.iss } else tp).core =
        (if syn then { tp.core with sndNxt := tp.iss } else tp.core) ∧
      transmits (if options then tcpMss (if syn then { tp with sndNxt := tp.iss } else tp) m
        else if syn then { tp with sndNxt := tp.iss } else tp) = transmits tp := by
  cases syn <;> cases options <;> exact ⟨rfl, rfl⟩

theorem transmits_header (fin : Bool) : transmits (dragUrgent (resendFin tp fin)) = transmits tp := by
  unfold dragUrgent resendFin
  split_ifs <;> rfl

theorem send_of_mgethdr (h : o.mgethdr = true) :
    ∃ ti, (send tp so p o).segment = some ti ∧ ti.flags.fin = p.flags.fin ∧
      ti.data = attach so.soSnd p (if p.flags.syn && !tp.tfNoopt then 4 else 0) o ∧
      (p.flags.fin = true → ti.seq = (tp.core.start p.flags.syn p.flags.fin).sndNxt) ∧
      (send tp so p o).conn.tp.core = (tp.core.start p.flags.syn p.flags.fin).advance (transmits tp)
        p.flags.syn p.flags.fin ti.data.length ∧
      (send tp so p o).conn.so.soSnd = so.soSnd := by
  have hne : ¬ o.mgethdr = false := by rw [h]; nofun
  obtain ⟨hcore, htransmits⟩ :=
    core_options p.flags.syn (p.flags.syn && !tp.tfNoopt) o.mss
  unfold send
  rw [if_neg hne]
  obtain ⟨t, ht⟩ : ∃ t, (if (p.flags.syn && !tp.tfNoopt) = true then
      tcpMss (if p.flags.syn = true then { tp with sndNxt := tp.iss } else tp) o.mss
    else if p.flags.syn = true then { tp with sndNxt := tp.iss } else tp) = t := ⟨_, rfl⟩
  rw [ht] at hcore htransmits
  have hstart : (resendFin t p.flags.fin).core = tp.core.start p.flags.syn p.flags.fin := by
    rw [core_resendFin, hcore]
    rfl
  obtain ⟨s, hs⟩ : ∃ s, (if (p.flags.syn && !tp.tfNoopt) = true then
      { so with rcvHiwat := o.mss.rcvHiwat } else so) = s := ⟨_, rfl⟩
  have hsnd : s.soSnd = so.soSnd := by
    rw [← hs]
    split_ifs <;> rfl
  simp only [ht, hs, hsnd]
  refine ⟨_, rfl, rfl, rfl, fun hfin => ?_, ?_, trivial⟩
  · rw [← hstart, segment]
    simp only [hfin, or_true, true_or, if_true]
    rfl
  · rw [core_sent, core_advance, transmits_header, core_dragUrgent, hstart, htransmits]
    rfl

end send

end Bsd386.Net.Tcp
