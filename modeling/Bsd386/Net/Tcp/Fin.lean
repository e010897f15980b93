import Bsd386.Net.Tcp.Outstanding

/-!
# Where the FIN is

Every segment that `tcp_output` hands to `ip_output` with `TH_FIN` should be numbered right after the
last byte of the send buffer: `ti_seq` and the length of its data make `snd_una + sb_cc` (`Placed`).

A step is in order when no FIN segment loses its data to a failed `m_copy` and no data is appended
after the FIN was sent (`sosend` may sleep between its test of `SS_CANTSENDMORE` and `PRU_SEND`).

The invariant is `Inv`: a pass keeps it (`Planned.view_send`, `pass_view`), and so does every other step
(`next_inv`).
-/

namespace Bsd386.Net.Tcp

open List

/-! ## One pass -/

/-- `ti_seq` and the length of the data make the end of the send buffer, if the segment has `TH_FIN`.
Source: tcp_output -/
def Placed (c : Conn) (ti : Tcpiphdr) : Prop :=
  ti.flags.fin = true → ti.seq + BitVec.ofNat 32 ti.data.length =
    c.tp.sndUna + BitVec.ofNat 32 c.so.soSnd.length

/-- More is outstanding than the bytes in the send buffer and a FIN that was sent: the SYN. -/
def SynPending (c : Conn) : Prop :=
  seqGt c.tp.sndMax (c.tp.sndUna +
    BitVec.ofNat 32 (c.so.soSnd.length + if c.tp.tfSentfin then 1 else 0)) = true

/-- A pass sends a segment with `TH_FIN`: it is planned, wanted, and has a header mbuf.
Source: tcp_output -/
def FinGoes (idle : Bool) (c : Conn) (o : Outcome) : Prop :=
  (planSend c).2.flags.fin = true ∧
    wantsSend (planSend c).1 c.so (planSend c).2 idle o.space = true ∧ o.mgethdr = true

/-- No FIN goes without its data. Source: tcp_output -/
def Kept (idle : Bool) (c : Conn) (o : Outcome) : Prop :=
  FinGoes idle c o → DataKept (planSend c).2 0 o

/-- A FIN goes with its data, and while the SYN is not acknowledged only at `snd_una`.
Source: tcp_output -/
def FinOk (idle : Bool) (c : Conn) (o : Outcome) : Prop :=
  FinGoes idle c o → DataKept (planSend c).2 0 o ∧
    (SynPending c → (planSend c).1.sndNxt = (planSend c).1.sndUna)

/-- What is known when a pass comes to `send:`; `snd_nxt` is at `n`. -/
structure Planned (c : Conn) (tp : Tcpcb) (p : Plan) (n m : ℕ) : Prop where
  view : View tp.core c.so.soSnd.length n m
  sndUna_eq : tp.sndUna = c.tp.sndUna
  sndMax_eq : tp.sndMax = c.tp.sndMax
  sentfin_eq : tp.tfSentfin = c.tp.tfSentfin
  off : p.len = 0 ∨ p.off.toNat + p.len ≤ c.so.soSnd.length
  len : p.len = 0 ∨ n + p.len ≤ c.so.soSnd.length
  syn : p.flags.syn = true → tp.iss = tp.sndUna ∧ p.flags.fin = false ∧ tp.tfSentfin = false ∧
    c.so.soSnd.length = 0
  fin : p.flags.fin = true → SendsFin tp.tState ∧ c.so.soSnd.length ≤ n + p.len ∧ p.flags.syn = false

section pass

variable {c : Conn} {tp : Tcpcb} {p : Plan} {n m : ℕ} {o : Outcome}

theorem length_attach {snd : List UInt8} {p : Plan} {o : Outcome} (optlen : ℕ)
    (hoff : p.len = 0 ∨ p.off.toNat + p.len ≤ snd.length) :
    (DataKept p optlen o → (attach snd p optlen o).length = p.len) ∧
      (¬ DataKept p optlen o → (attach snd p optlen o).length = 0) := by
  unfold DataKept attach
  constructor
  · intro hkept
    split_ifs with hfit
    · rw [length_take, length_drop]
      omega
    rw [length_nil]
    by_contra hne
    rcases hkept with hk | hk | hk
    · exact hfit (.inl hk)
    · exact hfit (.inr hk)
    · exact hne hk.symm
  · intro hlost
    rw [if_neg fun h => hlost (h.imp_right .inl), length_nil]

theorem tcpOutflags_syn {s : TcpState} (h : (tcpOutflags s).syn = true) :
    (tcpOutflags s).fin = false ∧ s.num ≤ TcpState.synReceived.num ∧ s ≠ .closed := by
  cases s <;> first | exact absurd h (by decide) | decide

theorem exists_planned (h : View c.tp.core c.so.soSnd.length n m) :
    ∃ n', Planned c (planSend c).1 (planSend c).2 n' m := by
  obtain ⟨n', hcore, hn', hoff, hlen, hflags⟩ := planSend_spec h
  have hlt := h.lt
  have hle := h.le
  have hview : View (planSend c).1.core c.so.soSnd.length n' m := by
    rw [hcore]
    exact h.back (hn'.trans hle)
  have huna : (planSend c).1.sndUna = c.tp.sndUna := congrArg Core.sndUna hcore
  have hsent : (planSend c).1.tfSentfin = c.tp.tfSentfin := congrArg Core.tfSentfin hcore
  have hstate : (planSend c).1.tState = c.tp.tState := congrArg Core.tState hcore
  have hoff' : (planSend c).2.off.toNat = n := by
    rw [hoff, BitVec.toNat_ofNat]
    omega
  refine ⟨n', hview, huna, congrArg Core.sndMax hcore, hsent, ?_, ?_, fun hsyn => ?_,
    fun hfin => ?_⟩
  · rw [hoff']
    exact hlen.imp_right And.right
  · rcases hlen with h0 | ⟨rfl, hle'⟩
    · exact .inl h0
    · exact .inr hle'
  · rw [hflags] at hsyn ⊢
    obtain ⟨hf, hnum, hne⟩ := tcpOutflags_syn hsyn
    obtain ⟨hcc, hiss⟩ := hview.early (by rw [← hstate] at hnum; exact hnum)
      (by rw [← hstate] at hne; exact hne)
    refine ⟨hiss, by simp [hf], ?_, hcc⟩
    by_contra hs
    have hs' : (planSend c).1.tfSentfin = true := by simpa using hs
    rcases hview.late hs' with hl | hl
    · rw [← hstate] at hnum
      exact absurd (hl.trans hnum) (by decide)
    · rw [← hstate] at hne
      exact hne hl
  · rw [hflags] at hfin ⊢
    simp only [Bool.and_eq_true, decide_eq_true_eq] at hfin
    refine ⟨by rw [hstate]; exact hfin.1, hfin.2, ?_⟩
    by_contra hsyn
    rw [(tcpOutflags_syn (by simpa using hsyn)).1] at hfin
    exact absurd hfin.1 nofun

theorem Planned.segment (h : Planned c tp p n m) (hg : o.mgethdr = true) :
    ∃ ti n2, (send tp c.so p o).segment = some ti ∧ ti.flags.fin = p.flags.fin ∧
      (p.flags.fin = true → ti.seq = at' tp.sndUna n2) ∧
      (p.flags.syn = false → (DataKept p 0 o → ti.data.length = p.len) ∧
        (¬ DataKept p 0 o → ti.data.length = 0)) ∧ ti.data.length ≤ p.len ∧
      (send tp c.so p o).conn.tp.core = ({ tp.core with sndNxt := at' tp.sndUna n2 } : Core).advance
        (transmits tp) p.flags.syn p.flags.fin ti.data.length ∧
      n2 ≤ m ∧ (p.flags.syn = true → n2 = 0) ∧
      (p.flags.syn = false → n2 = n ∧ ¬ (p.flags.fin = true ∧ tp.tfSentfin = true ∧ n = m) ∨
        n2 + 1 = n ∧ p.flags.fin = true ∧ tp.tfSentfin = true ∧ n = m) := by
  obtain ⟨ti, hsegment, hfin, hdata, hseq, hcore, -⟩ := @send_of_mgethdr tp c.so p o hg
  obtain ⟨n2, hstart, hle, hsyn2, hn2⟩ :=
    h.view.start (fun hs => ⟨(h.syn hs).1, (h.syn hs).2.1⟩) fun hf => (h.fin hf).1
  rw [hstart] at hseq hcore
  refine ⟨ti, n2, hsegment, hfin, hseq, fun hs => ?_, ?_, hcore, hle, hsyn2, hn2⟩
  · rw [hs, Bool.false_and, if_neg (by decide)] at hdata
    rw [hdata]
    exact length_attach 0 h.off
  · rw [hdata]
    obtain ⟨hkept, hlost⟩ := length_attach (o := o) (if p.flags.syn && !tp.tfNoopt then 4 else 0) h.off
    by_cases hk : DataKept p (if p.flags.syn && !tp.tfNoopt then 4 else 0) o
    · exact (hkept hk).le
    · rw [hlost hk]
      exact Nat.zero_le _

theorem Planned.view_send (h : Planned c tp p n m)
    (hk : p.flags.fin = true → o.mgethdr = true → DataKept p 0 o) :
    ∃ n' m', View (send tp c.so p o).conn.tp.core c.so.soSnd.length n' m' ∧ m ≤ m' := by
  cases hg : o.mgethdr with
  | false =>
    rw [(send_of_mgethdr_eq_false hg).1]
    cases hsyn : p.flags.syn with
    | false => exact ⟨n, m, h.view, le_rfl⟩
    | true =>
      refine ⟨0, m, ?_, le_rfl⟩
      rw [if_pos rfl, (h.syn hsyn).1]
      have := h.view.back (Nat.zero_le m)
      rw [at'_zero] at this
      exact this
  | true =>
    obtain ⟨ti, n2, -, -, -, hlen, hle, hcore, hn₂m, hsyn2, hn2⟩ := h.segment hg
    have hview := h.view.back hn₂m
    rw [hcore]
    have hn₂n : n2 ≤ n := by
      cases hsyn : p.flags.syn with
      | true =>
        rw [hsyn2 hsyn]
        exact Nat.zero_le n
      | false =>
        have := hn2 hsyn
        omega
    have hlen2 : ti.data.length = 0 ∨ n2 + ti.data.length ≤ c.so.soSnd.length := by
      have := h.len
      omega
    cases transmits tp with
    | false =>
      obtain ⟨m', hv, hm'⟩ := hview.persist hlen2 p.flags.syn p.flags.fin
      exact ⟨n2, m', hv, hm'⟩
    | true =>
      refine hview.transmit hlen2 (fun hs => ?_) fun hf => ?_
      · obtain ⟨-, hf, hsent, hcc⟩ := h.syn hs
        exact ⟨hsyn2 hs, by omega, hf, hsent⟩
      · obtain ⟨hstate, hge, hs⟩ := h.fin hf
        have hkept := (hlen hs).1 (hk hf hg)
        have hn := hn2 hs
        simp only [hf, true_and] at hn
        have hnumber := h.view.fin_number hstate hge h.len hn
        refine ⟨hstate, ?_⟩
        by_cases hp : c.so.soSnd.length + (if tp.core.tfSentfin then 1 else 0) < m
        · obtain ⟨hcc, h0, ⟨-, hn0⟩ | ⟨hpos, hn1⟩⟩ := hnumber.2.1 hp
          · exact .inl (by omega)
          · exact .inr ⟨hcc, by omega, hn1, by have := h.view.le; omega⟩
        · exact .inl (hkept ▸ hnumber.1 hp)

/-- **Where the FIN of a pass is**: after the last byte, exactly when its data is kept and there is no
SYN in the way. -/
theorem Planned.isPlaced_iff (h : Planned c tp p n m) (hf : p.flags.fin = true) (hg : o.mgethdr = true)
    {ti : Tcpiphdr} (hti : (send tp c.so p o).segment = some ti) :
    Placed c ti ↔ DataKept p 0 o ∧ (SynPending c → tp.sndNxt = tp.sndUna) := by
  obtain ⟨hstate, hge, hs⟩ := h.fin hf
  obtain ⟨ti', n2, hti', hfin, hseq, hlen, -, -, hn₂m, -, hn2⟩ := h.segment hg
  obtain rfl : ti' = ti := Option.some.inj (hti'.symm.trans hti)
  have hlt := h.view.lt
  have hcc := h.view.cc_le
  unfold sndLimit at hcc
  have hn := hn2 hs
  simp only [hf, true_and] at hn
  obtain ⟨hnot, hpend, hpos⟩ := h.view.fin_number hstate hge h.len hn
  have hL : ti'.data.length ≤ p.len := by
    by_cases hk : DataKept p 0 o
    · exact ((hlen hs).1 hk).le
    · rw [(hlen hs).2 hk]
      exact Nat.zero_le _
  have hlen_le : p.len ≤ c.so.soSnd.length := by
    omega
  -- both sides as distances from `snd_una`
  have hplaced : Placed c ti' ↔ n2 + ti'.data.length = c.so.soSnd.length := by
    unfold Placed
    rw [hfin, hf, hseq hf, at'_add, ← h.sndUna_eq]
    refine (imp_iff_right rfl).trans ?_
    exact at'_inj (by omega) (by omega)
  have hpending : SynPending c ↔
      c.so.soSnd.length + (if tp.core.tfSentfin then 1 else 0) < m := by
    unfold SynPending
    rw [← h.sentfin_eq, ← h.sndUna_eq, ← h.sndMax_eq,
      show tp.sndMax = at' tp.sndUna m from h.view.sndMax_eq]
    rw [show tp.sndUna + BitVec.ofNat 32 (c.so.soSnd.length + if tp.tfSentfin = true then 1 else 0) =
      at' tp.sndUna (c.so.soSnd.length + if tp.tfSentfin = true then 1 else 0) from rfl,
      seqGt_at' (by omega) (by split <;> omega), decide_eq_true_eq]
    rfl
  have hnxt : tp.sndNxt = tp.sndUna ↔ n = 0 := by
    have hz := at'_zero tp.sndUna
    rw [show tp.sndNxt = at' tp.sndUna n from h.view.sndNxt_eq]
    constructor
    · intro heq
      exact (at'_inj (by omega) (by omega)).mp (heq.trans hz.symm)
    · rintro rfl
      exact hz
  rw [hplaced, hpending, hnxt]
  by_cases hk : DataKept p 0 o
  · rw [(hlen hs).1 hk]
    refine ⟨fun heq => ⟨hk, fun hp => ?_⟩, fun hok => ?_⟩
    · have := hpend hp
      omega
    · by_cases hp : c.so.soSnd.length + (if tp.core.tfSentfin then 1 else 0) < m
      · have := hpend hp
        omega
      · exact hnot hp
  · refine iff_of_false (fun heq => ?_) fun hok => hk hok.1
    rw [(hlen hs).2 hk] at heq
    have h0 : 0 < p.len := Nat.pos_of_ne_zero fun h0 => hk (.inr (.inr h0))
    omega

theorem send_sndUna : (send tp c.so p o).conn.tp.sndUna = tp.sndUna ∧
    (send tp c.so p o).conn.so.soSnd = c.so.soSnd := by
  cases hg : o.mgethdr with
  | false =>
    obtain ⟨hcore, hso, -, -⟩ := @send_of_mgethdr_eq_false tp c.so p o hg
    refine ⟨(congrArg Core.sndUna hcore).trans ?_, hso⟩
    split_ifs <;> rfl
  | true =>
    obtain ⟨ti, -, -, -, -, hcore, hso⟩ := @send_of_mgethdr tp c.so p o hg
    refine ⟨(congrArg Core.sndUna hcore).trans ?_, hso⟩
    unfold Core.advance Core.start Core.resend
    split_ifs <;> rfl

variable (idle : Bool)

section

variable (h : View c.tp.core c.so.soSnd.length n m)
include h

theorem pass_sndUna :
    (pass idle c o).conn.tp.sndUna = c.tp.sndUna ∧
      (pass idle c o).conn.so.soSnd = c.so.soSnd := by
  obtain ⟨n', hp⟩ := exists_planned h
  unfold pass
  dsimp only
  split_ifs
  · exact ⟨send_sndUna.1.trans hp.sndUna_eq, send_sndUna.2⟩
  · exact ⟨(congrArg Core.sndUna (core_noSend ..)).trans hp.sndUna_eq, rfl⟩

theorem pass_view (hk : Kept idle c o) :
    ∃ n' m', View (pass idle c o).conn.tp.core (pass idle c o).conn.so.soSnd.length n' m' ∧
      m ≤ m' := by
  rw [(pass_sndUna idle h).2]
  obtain ⟨n', hp⟩ := exists_planned h
  unfold pass
  dsimp only
  split_ifs with hw
  · exact hp.view_send fun hf hg => hk ⟨hf, hw, hg⟩
  · refine ⟨n', m, ?_, le_rfl⟩
    rw [core_noSend]
    exact hp.view

theorem pass_placed_iff :
    (∀ ti, (pass idle c o).segment = some ti → Placed c ti) ↔ FinOk idle c o := by
  obtain ⟨n', hp⟩ := exists_planned h
  unfold pass FinOk FinGoes
  by_cases hw : wantsSend (planSend c).1 c.so (planSend c).2 idle o.space = true
  · rw [if_pos hw]
    cases hg : o.mgethdr with
    | false =>
      rw [(send_of_mgethdr_eq_false hg).2.2.1]
      exact iff_of_true nofun fun h => absurd h.2.2 nofun
    | true =>
      obtain ⟨ti, n2, hti, hfin, -⟩ := hp.segment hg
      by_cases hf : (planSend c).2.flags.fin = true
      · rw [← hp.isPlaced_iff hf hg hti]
        refine ⟨fun h _ => h ti hti, fun h ti' hti' => ?_⟩
        obtain rfl := Option.some.inj (hti.symm.trans hti')
        exact h ⟨hf, hw, rfl⟩
      · refine iff_of_true (fun ti' hti' hf' => ?_) fun h => absurd h.1 hf
        obtain rfl := Option.some.inj (hti.symm.trans hti')
        exact absurd (hfin.symm.trans hf') hf
  · rw [if_neg hw]
    exact iff_of_true nofun fun h => absurd h.2.1 hw

end

/-! ## A call -/

/-- A condition holds in every pass of a call. -/
def EveryPass (P : Bool → Conn → Outcome → Prop) (idle : Bool) (c : Conn) : List Outcome → Prop
  | [] => True
  | o :: os => P idle c o ∧
      ((pass idle c o).again = true → EveryPass P idle (pass idle c o).conn os)

/-- The same for a call of `tcp_output`. Source: tcp_output -/
def OutputAll (P : Bool → Conn → Outcome → Prop) (c : Conn) (os : List Outcome) : Prop :=
  EveryPass P (c.tp.sndMax = c.tp.sndUna) (slowStart c) os

theorem passes_view (os : List Outcome) (h : View c.tp.core c.so.soSnd.length n m)
    (hk : EveryPass Kept idle c os) :
    ∃ n' m', View (passes idle c os).1.tp.core (passes idle c os).1.so.soSnd.length n' m' ∧
      m ≤ m' ∧ (passes idle c os).1.tp.sndUna = c.tp.sndUna := by
  induction os generalizing c n m with
  | nil => exact ⟨n, m, h, le_rfl, rfl⟩
  | cons o os ih =>
    obtain ⟨n1, m1, h1, hm1⟩ := pass_view idle h hk.1
    have huna := (pass_sndUna idle (o := o) h).1
    rw [passes]
    by_cases hagain : (pass idle c o).again = true
    · rw [if_pos hagain]
      obtain ⟨n', m', h', hm', huna'⟩ := ih h1 (hk.2 hagain)
      exact ⟨n', m', h', hm1.trans hm', huna'.trans huna⟩
    · rw [if_neg hagain]
      exact ⟨n1, m1, h1, hm1, huna⟩

theorem passes_placed_iff (os : List Outcome) (h : View c.tp.core c.so.soSnd.length n m) :
    (∀ ti ∈ (passes idle c os).2, Placed c ti) ↔ EveryPass FinOk idle c os := by
  induction os generalizing c n m with
  | nil => exact iff_of_true (fun ti hti => absurd hti not_mem_nil) trivial
  | cons o os ih =>
    have hfirst : (∀ ti ∈ (pass idle c o).segment.toList, Placed c ti) ↔ FinOk idle c o := by
      rw [← pass_placed_iff idle h]
      simp only [Option.mem_toList]
    rw [passes, EveryPass]
    by_cases hagain : (pass idle c o).again = true
    · rw [if_pos hagain]
      simp only [mem_append, or_imp, forall_and, hfirst, hagain, true_imp_iff]
      refine and_congr_right fun hok => ?_
      obtain ⟨n1, m1, h1, -⟩ := pass_view idle (o := o) h fun hg => (hok hg).1
      obtain ⟨huna, hso⟩ := pass_sndUna idle (o := o) h
      rw [← ih h1]
      simp only [Placed, huna, hso]
    · rw [if_neg hagain]
      exact hfirst.trans ⟨fun hok => ⟨hok, fun ha => absurd ha hagain⟩, And.left⟩

end pass

/-! ## Steps -/

section step

variable {c c' : Conn} {n m : ℕ}

theorem inv_synSentInput (h : Inv c) (hstate : c.tp.tState = .synSent) (ack : Option (BitVec 32))
    (hack : ∀ a, ack = some a → seqLeq a c.tp.iss = false ∧ seqGt a c.tp.sndMax = false) :
    Inv (synSentInput c ack) := by
  obtain ⟨n, m, h⟩ := h
  have hnum : c.tp.core.tState.num ≤ TcpState.synReceived.num := by
    rw [show c.tp.core.tState = .synSent from hstate]
    decide
  have hne : c.tp.core.tState ≠ .closed := by
    rw [show c.tp.core.tState = .synSent from hstate]
    decide
  obtain ⟨hcc, hiss⟩ := h.early hnum hne
  have hs := h.not_sentfin hnum hne
  cases ack with
  | none =>
    refine ⟨n, m, h.state (s := .synReceived) (fun hs' => ?_) (fun hs' => ?_) fun _ _ => ⟨hnum, hne⟩⟩
    · exact absurd (hs.symm.trans hs') nofun
    · exact absurd (hs.symm.trans hs') nofun
  | some a =>
    obtain ⟨hnew, hmax⟩ := hack a rfl
    rw [show c.tp.iss = c.tp.core.sndUna from hiss] at hnew
    obtain ⟨j, rfl, hj, hjm⟩ := h.ack_eq hnew hmax
    obtain ⟨hnxt, hmax'⟩ := h.acked hjm
    have hest : seqGt (at' c.tp.core.sndUna j) c.tp.iss = true := by
      rw [show c.tp.iss = c.tp.core.sndUna from hiss]
      simpa [seqLeq, seqGt] using hnew
    have hle := h.le
    have hmaxle := h.max_le
    rw [hs, if_neg (by decide)] at hmaxle
    refine ⟨max n j - j, m - j, ?_⟩
    rw [synSentInput]
    rw [hest]
    refine { sndNxt_eq := hnxt, sndMax_eq := hmax', le := by omega, cc_le := h.cc_le,
             max_le := ?_, fin := fun hs' => ?_, late := fun hs' => ?_, early := fun h' => ?_ }
    · change m - j ≤ max c.so.soSnd.length 1 + if c.tp.core.tfSentfin then 1 else 0
      omega
    · exact absurd (hs.symm.trans hs') nofun
    · exact absurd (hs.symm.trans hs') nofun
    · exact absurd (show TcpState.established.num ≤ TcpState.synReceived.num from h') (by decide)

theorem ackedState_spec {s : TcpState} (h : TcpState.established.num ≤ s.num) (b : Bool) :
    (TcpState.established.num ≤ (ackedState s b).num ∨ ackedState s b = .closed) ∧
      (TcpState.finWait1.num ≤ s.num →
        TcpState.finWait1.num ≤ (ackedState s b).num ∨ ackedState s b = .closed) ∧
      (SendsFin (ackedState s b) → b = false ∧ SendsFin s) := by
  revert h
  unfold SendsFin
  cases s <;> cases b <;> decide

theorem inv_ackInput (h : Inv c) (hstate : TcpState.established.num ≤ c.tp.tState.num)
    {a : BitVec 32} (hnew : seqLeq a c.tp.sndUna = false) (hmax : seqGt a c.tp.sndMax = false) :
    Inv (ackInput c a) := by
  obtain ⟨n, m, h⟩ := h
  obtain ⟨j, rfl, hj, hjm⟩ := h.ack_eq hnew hmax
  obtain ⟨hnxt, hmax'⟩ := h.acked hjm
  have hlt := h.lt
  have hle := h.le
  have hcc := h.cc_le
  have hmaxle := h.max_le
  have hacked : (at' c.tp.core.sndUna j - c.tp.sndUna).toNat = j := by
    have hsub := at'_sub c.tp.core.sndUna j 0
    rw [at'_zero] at hsub
    rw [show c.tp.sndUna = c.tp.core.sndUna from rfl, hsub, BitVec.sub_zero, BitVec.toNat_ofNat]
    omega
  obtain ⟨b, hb⟩ : ∃ b : Bool, decide (c.so.soSnd.length < j) = b := ⟨_, rfl⟩
  obtain ⟨hnum, hlate, hsends⟩ := ackedState_spec hstate b
  refine ⟨max n j - j, m - j, ?_⟩
  rw [ackInput]
  rw [hacked, hb, length_drop]
  obtain ⟨d, hd⟩ : ∃ d, (if b = true then c.so.soSnd.length else j) = d := ⟨_, rfl⟩
  have hdrop : c.so.soSnd.length - d = c.so.soSnd.length - j := by
    rw [← hd]
    cases b with
    | true =>
      rw [if_pos rfl]
      have := of_decide_eq_true hb
      omega
    | false => rw [if_neg (by decide)]
  rw [hd, hdrop]
  refine { sndNxt_eq := hnxt, sndMax_eq := hmax', le := by omega, cc_le := by omega,
           max_le := ?_, fin := fun hs hf => ?_, late := fun hs => ?_, early := fun h' hne => ?_ }
  · change m - j ≤ max (c.so.soSnd.length - j) 1 + if c.tp.core.tfSentfin then 1 else 0
    generalize (if c.tp.core.tfSentfin = true then 1 else 0) = f at hmaxle ⊢
    omega
  · obtain ⟨rfl, hf'⟩ := hsends hf
    have := h.fin hs hf'
    have := of_decide_eq_false hb
    omega
  · rcases h.late hs with hl | hl
    · exact hlate hl
    · rw [show c.tp.tState = .closed from hl] at hstate
      exact absurd hstate (by decide)
  · rcases hnum with hl | hl
    · exact absurd (hl.trans h') (by decide)
    · exact absurd hl hne

theorem usrclosedState_spec (s : TcpState) :
    (TcpState.finWait1.num ≤ s.num ∨ s = .closed →
      (SendsFin (usrclosedState s) → SendsFin s) ∧
        (TcpState.finWait1.num ≤ (usrclosedState s).num ∨ usrclosedState s = .closed)) ∧
      ((usrclosedState s).num ≤ TcpState.synReceived.num → usrclosedState s ≠ .closed →
        s.num ≤ TcpState.synReceived.num ∧ s ≠ .closed) := by
  unfold SendsFin
  cases s <;> decide

theorem finRcvdState_spec (s : TcpState) :
    (TcpState.finWait1.num ≤ s.num ∨ s = .closed →
      (SendsFin (finRcvdState s) → SendsFin s) ∧
        (TcpState.finWait1.num ≤ (finRcvdState s).num ∨ finRcvdState s = .closed)) ∧
      ((finRcvdState s).num ≤ TcpState.synReceived.num → finRcvdState s ≠ .closed →
        s.num ≤ TcpState.synReceived.num ∧ s ≠ .closed) := by
  unfold SendsFin
  cases s <;> decide

/-- The condition of a step: no FIN goes without its data, and no data comes after a FIN.
Source: tcp_output; sosend -/
def InOrder (c : Conn) : Event → Prop
  | .output os => OutputAll Kept c os
  | .fastRexmt os => OutputAll Kept (fastRexmtStart c) os
  | .append _ => c.tp.tfSentfin = false
  | _ => True

theorem sameSend_slowStart (c : Conn) : SameSend c (slowStart c) := by
  unfold slowStart
  split_ifs
  · exact ⟨rfl, rfl⟩
  · exact ⟨rfl, rfl⟩

theorem SameSend.view (hs : SameSend c c') (h : View c.tp.core c.so.soSnd.length n m) :
    View c'.tp.core c'.so.soSnd.length n m := by
  rw [hs.1, hs.2]
  exact h

theorem tcpOutput_view (h : View c.tp.core c.so.soSnd.length n m) {os : List Outcome}
    (hk : OutputAll Kept c os) :
    ∃ n' m', View (tcpOutput c os).1.tp.core (tcpOutput c os).1.so.soSnd.length n' m' ∧ m ≤ m' ∧
      (tcpOutput c os).1.tp.sndUna = c.tp.sndUna := by
  have hs := sameSend_slowStart c
  obtain ⟨n', m', hv, hm, huna⟩ := passes_view _ os (hs.view h) hk
  exact ⟨n', m', hv, hm, huna.trans (congrArg Core.sndUna hs.1)⟩

theorem next_inv (h : Inv c) {e : Event} (ho : InOrder c e) (hn : Next c e c') : Inv c' := by
  cases hn with
  | output os =>
    obtain ⟨n, m, h⟩ := h
    obtain ⟨n', m', h', -⟩ := tcpOutput_view h ho
    exact ⟨n', m', h'⟩
  | other hs =>
    obtain ⟨n, m, h⟩ := h
    exact ⟨n, m, hs.view h⟩
  | synSent ack hstate hack => exact inv_synSentInput h hstate ack hack
  | synReceived ack hstate hle hmax =>
    obtain ⟨n, m, h⟩ := h
    have hst : c.tp.core.tState = .synReceived := hstate
    have hs := h.not_sentfin (by rw [hst]) (by rw [hst]; nofun)
    refine ⟨n, m, h.state (s := .established) (fun hs' => ?_) (fun hs' => ?_) fun h' => ?_⟩
    · exact absurd (hs.symm.trans hs') nofun
    · exact absurd (hs.symm.trans hs') nofun
    · exact absurd h' (by decide)
  | ack a hstate hnew hmax => exact inv_ackInput h hstate hnew hmax
  | rexmt =>
    obtain ⟨n, m, h⟩ := h
    have hback := h.back (Nat.zero_le m)
    rw [at'_zero] at hback
    exact ⟨0, m, hback⟩
  | fastRexmt os hstate =>
    obtain ⟨n, m, h⟩ := h
    have hback : View (fastRexmtStart c).tp.core (fastRexmtStart c).so.soSnd.length 0 m := by
      have := h.back (Nat.zero_le m)
      rw [at'_zero] at this
      exact this
    obtain ⟨n', m', h', hm, huna⟩ := tcpOutput_view hback ho
    have hlt := h'.lt
    have hle := h'.le
    have hnm := h.le
    refine ⟨max n' n, m', { h' with sndNxt_eq := ?_, le := by omega }⟩
    obtain ⟨r, hr⟩ : ∃ r, (tcpOutput (fastRexmtStart c) os).1 = r := ⟨_, rfl⟩
    rw [hr] at h' huna ⊢
    have honxt : c.tp.sndNxt = at' r.tp.sndUna n := by
      rw [huna]
      exact h.sndNxt_eq
    have hnxt : r.tp.sndNxt = at' r.tp.sndUna n' := h'.sndNxt_eq
    change (if seqGt c.tp.sndNxt r.tp.sndNxt = true then c.tp.sndNxt else r.tp.sndNxt) =
      at' r.tp.sndUna (max n' n)
    rw [honxt, hnxt, seqGt_at' (by omega) (by omega)]
    by_cases hlt' : n' < n
    · rw [if_pos (decide_eq_true hlt'), max_eq_right hlt'.le]
    · rw [decide_eq_false hlt', max_eq_left (Nat.not_lt.mp hlt')]
      rfl
  | append b hstate hlen =>
    obtain ⟨n, m, h⟩ := h
    have hs : c.tp.core.tfSentfin = false := ho
    have hmax := h.max_le
    refine ⟨n, m, ?_⟩
    rw [length_append]
    refine { h with cc_le := hlen, max_le := ?_, fin := fun hs' => ?_, early := fun h' => ?_ }
    · generalize (if c.tp.core.tfSentfin = true then 1 else 0) = f at hmax ⊢
      omega
    · exact absurd (hs.symm.trans hs') nofun
    · exact absurd (hstate.trans h') (by decide)
  | usrclosed =>
    obtain ⟨n, m, h⟩ := h
    have hspec := usrclosedState_spec c.tp.tState
    exact ⟨n, m, h.state (fun hs => (hspec.1 (h.late hs)).1) (fun hs => (hspec.1 (h.late hs)).2)
      hspec.2⟩
  | finRcvd =>
    obtain ⟨n, m, h⟩ := h
    have hspec := finRcvdState_spec c.tp.tState
    exact ⟨n, m, h.state (fun hs => (hspec.1 (h.late hs)).1) (fun hs => (hspec.1 (h.late hs)).2)
      hspec.2⟩
  | drop =>
    obtain ⟨n, m, h⟩ := h
    refine ⟨n, m, h.state (s := .closed) (fun _ hf => ?_) (fun _ => .inr rfl) fun _ hne => ?_⟩
    · exact absurd hf (by unfold SendsFin; decide)
    · exact absurd rfl hne

end step

/-! ## All connections -/

theorem inv_of_reach {c : Conn} (h : ReachBy InOrder c) : Inv c := by
  refine h.invariant (fun c hc => ?_) fun c c' _ hinv ⟨e, ho, hn⟩ => next_inv hinv ho hn
  have hzero : c.tp.iss = at' c.tp.iss 0 := (at'_zero _).symm
  have hcc : c.so.soSnd.length = 0 := by rw [hc.soSnd]; rfl
  refine ⟨0, 0, ?_⟩
  rw [hcc]
  refine { sndNxt_eq := ?_, sndMax_eq := ?_, le := le_rfl, cc_le := Nat.zero_le _,
           max_le := Nat.zero_le _, fin := fun hs => ?_, late := fun hs => ?_,
           early := fun _ _ => ⟨rfl, hc.sndUna.symm⟩ }
  · change c.tp.sndNxt = at' c.tp.sndUna 0
    rw [hc.sndNxt, hc.sndUna]
    exact hzero
  · change c.tp.sndMax = at' c.tp.sndUna 0
    rw [hc.sndMax, hc.sndUna]
    exact hzero
  · exact absurd (hc.tfSentfin.symm.trans hs) nofun
  · exact absurd (hc.tfSentfin.symm.trans hs) nofun

/-- **Where the FIN is.** In every connection that steps in order lead to, the FIN segments of a call
are numbered right after the last byte of the send buffer exactly when each goes with its data and,
while the SYN is not acknowledged, is sent at `snd_una`.
Source: tcp_output. Kind: C -/
theorem placed_iff {c : Conn} (h : ReachBy InOrder c) (os : List Outcome) :
    (∀ ti ∈ (tcpOutput c os).2, Placed c ti) ↔ OutputAll FinOk c os := by
  obtain ⟨n, m, hv⟩ := inv_of_reach h
  have hs := sameSend_slowStart c
  have huna : (slowStart c).tp.sndUna = c.tp.sndUna := congrArg Core.sndUna hs.1
  rw [OutputAll, ← passes_placed_iff _ os (hs.view hv), tcpOutput]
  simp only [Placed, huna, hs.2]

/-! ## A connection that is closed with data to send -/

/-- A pass that finds all mbufs it asks for. -/
def mbufs : Outcome where
  mgethdr := true
  mCopy := true
  maxLinkhdr := 16
  space := 4096
  mss := ⟨512, 512, 65535, 0, 24, 2, 12, 4096⟩
  ipOutput := .none

/-- After `PRU_CONNECT` has chosen the sequence number 0. -/
def connecting : Conn :=
  ⟨{ tcpNewtcpcb with tState := .synSent }, ⟨[], [], 4096, false, false, false, false, 0, 0⟩⟩

/-- The SYN is sent, and the peer answers with a window of 4096.
Source: tcp_input. -/
def connected : Conn :=
  let c := synSentInput (tcpOutput connecting [mbufs]).1 (some 1)
  { c with tp := { c.tp with sndWnd := 4096, maxSndwnd := 4096 } }

/-- The user writes 200 bytes and closes. -/
def closing : Conn :=
  { tp := { connected.tp with tState := usrclosedState connected.tp.tState }
    so := { connected.so with soSnd := connected.so.soSnd ++ List.replicate 200 7 } }

/-- Source: tcp_usrreq.c. -/
theorem reach_closing : ReachBy InOrder closing := by
  have h0 : ReachBy InOrder connecting := .start ⟨by decide, rfl, rfl, rfl, rfl, rfl⟩
  have h1 : ReachBy InOrder (tcpOutput connecting [mbufs]).1 :=
    .step h0 ⟨.output [mbufs], ⟨fun _ => .inr (.inl rfl), fun _ => trivial⟩, .output [mbufs]⟩
  have h2 : ReachBy InOrder (synSentInput (tcpOutput connecting [mbufs]).1 (some 1)) := by
    refine .step h1 ⟨.synSent (some 1), trivial, .synSent (some 1) (by decide) fun a ha => ?_⟩
    obtain rfl := Option.some.inj ha
    decide
  have h3 : ReachBy InOrder connected := .step h2 ⟨.other, trivial, .other ⟨rfl, rfl⟩⟩
  have hsentfin : connected.tp.tfSentfin = false := by decide
  have hest : TcpState.established.num ≤ connected.tp.tState.num := by decide
  have hroom : connected.so.soSnd.length + (replicate 200 (7 : UInt8)).length ≤ sndLimit := by
    rw [length_replicate]
    decide
  exact .step (.step h3 ⟨.append (replicate 200 7), hsentfin, .append _ hest hroom⟩)
    ⟨.usrclosed, trivial, .usrclosed⟩

/-- With mbufs for the copy, the FIN goes with the 200 bytes.
Source: tcp_output. Kind: C -/
theorem placed_iff_closing : ∃ ti, (tcpOutput closing [mbufs]).2 = [ti] ∧ Placed closing ti := by
  have hsent : (tcpOutput closing [mbufs]).2.map (fun ti => ti.flags.fin) = [true] := by decide +kernel
  obtain ⟨ti, hti, -⟩ := map_eq_singleton_iff.mp hsent
  refine ⟨ti, hti, (placed_iff reach_closing [mbufs]).mpr ⟨fun _ => ⟨.inr (.inl rfl), fun hp => ?_⟩,
    fun _ => trivial⟩ ti ?_⟩
  · exact absurd hp (by unfold SynPending; decide +kernel)
  · rw [hti]
    exact mem_singleton_self ti

/-- **A FIN before the data.** When `m_copy` fails the segment goes without data and with the FIN that
was meant to follow it.
Source: tcp_output. Kind: C -/
theorem not_forall_placed :
    ¬ ∀ c, ReachBy (fun _ _ => True) c → ∀ os, ∀ ti ∈ (tcpOutput c os).2, Placed c ti := by
  intro h
  have hreach : ReachBy (fun _ _ => True) closing :=
    reach_closing.mono fun c c' ⟨e, _, hn⟩ => ⟨e, trivial, hn⟩
  have hall := h closing hreach [{ mbufs with mCopy := false }]
  have hsent : (tcpOutput closing [{ mbufs with mCopy := false }]).2.map
      (fun ti => (ti.flags.fin, ti.seq, ti.data)) = [(true, 1, [])] := by decide +kernel
  obtain ⟨ti, hti, heq⟩ := map_eq_singleton_iff.mp hsent
  obtain ⟨hfin, heq'⟩ := Prod.mk.inj heq
  obtain ⟨hseq, hdata⟩ := Prod.mk.inj heq'
  have hplaced := hall ti (by rw [hti]; exact mem_singleton_self ti) hfin
  rw [hseq, hdata] at hplaced
  exact absurd hplaced (by decide +kernel)

end Bsd386.Net.Tcp
