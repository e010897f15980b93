import Bsd386.Net.Tcp.Effect

/-!
# What is outstanding

The invariant of the send sequence variables (`View`), counted from `snd_una`: `snd_nxt` is at `n` and
`snd_max` at `m`, with `n ≤ m ≤ max sb_cc 1 + 1`, where the last one is there only after the FIN was
sent, and the first one only as long as the SYN is not acknowledged. Here it is kept by the moves that
`tcp_output` and acknowledgements make of them.
-/

namespace Bsd386.Net.Tcp

open BitVec

/-! ## The invariant -/

/-- The state is one in which a FIN is sent. Source: tcp_fsm.h tcp_outflags -/
def SendsFin (s : TcpState) : Prop := (tcpOutflags s).fin = true

/-- The sequence variables count from `snd_una`: `snd_nxt` is at `n` and `snd_max` at `m`, and `cc`
bytes are in the send buffer. -/
structure View (k : Core) (cc n m : ℕ) : Prop where
  sndNxt_eq : k.sndNxt = at' k.sndUna n
  sndMax_eq : k.sndMax = at' k.sndUna m
  le : n ≤ m
  cc_le : cc ≤ sndLimit
  max_le : m ≤ max cc 1 + if k.tfSentfin then 1 else 0
  /-- A FIN that was sent and not acknowledged is after the last byte; or after the SYN that is not
  acknowledged, with no byte between. -/
  fin : k.tfSentfin = true → SendsFin k.tState → m = cc + 1 ∨ cc = 0 ∧ m = 2
  late : k.tfSentfin = true → TcpState.finWait1.num ≤ k.tState.num ∨ k.tState = .closed
  /-- Before the connection is established there is only the SYN. -/
  early : k.tState.num ≤ TcpState.synReceived.num → k.tState ≠ .closed →
    cc = 0 ∧ k.iss = k.sndUna

def Inv (c : Conn) : Prop := ∃ n m, View c.tp.core c.so.soSnd.length n m

section view

variable {k : Core} {cc n m : ℕ}

theorem View.lt (h : View k cc n m) : m < 2 ^ 20 := by
  have h1 := h.max_le
  have h2 := h.cc_le
  unfold sndLimit at h2
  split at h1 <;> omega

theorem planSend_spec {c : Conn} (h : View c.tp.core c.so.soSnd.length n m) :
    ∃ n', (planSend c).1.core = { c.tp.core with sndNxt := at' c.tp.sndUna n' } ∧ n' ≤ n ∧
      (planSend c).2.off = BitVec.ofNat 32 n ∧
      ((planSend c).2.len = 0 ∨ n' = n ∧ n + (planSend c).2.len ≤ c.so.soSnd.length) ∧
      (planSend c).2.flags = { tcpOutflags c.tp.tState with
        fin := (tcpOutflags c.tp.tState).fin &&
          decide (c.so.soSnd.length ≤ n' + (planSend c).2.len) } := by
  have hlt := h.lt
  have hle := h.le
  have hcc := h.cc_le
  unfold sndLimit at hcc
  obtain ⟨f, hf⟩ : ∃ f, forceWin c.tp (min c.tp.sndWnd.toNat c.tp.sndCwnd.toNat) = f := ⟨_, rfl⟩
  have hcore : f.1.core = c.tp.core := by
    rw [← hf]
    exact core_forceWin ..
  have hoff : c.tp.sndNxt - c.tp.sndUna = BitVec.ofNat 32 n := by
    have := at'_sub c.tp.sndUna n 0
    rw [at'_zero] at this
    rw [show c.tp.sndNxt = _ from h.sndNxt_eq]
    exact this.trans (BitVec.sub_zero _)
  have hlen : (BitVec.ofNat 32 (min c.so.soSnd.length f.2) - BitVec.ofNat 32 n).toInt =
      ((min c.so.soSnd.length f.2 : ℕ) : ℤ) - n := by
    rw [← at'_sub 0, toInt_at'_sub (by omega) (by omega)]
  obtain ⟨raw, hraw⟩ : ∃ raw, ((min c.so.soSnd.length f.2 : ℕ) : ℤ) - n = raw := ⟨_, rfl⟩
  obtain ⟨tp, htp⟩ : ∃ tp, pullBack f.1 raw f.2 = tp := ⟨_, rfl⟩
  -- `snd_nxt` stays, or goes back to `snd_una` where nothing can be sent
  obtain ⟨n', hn', htpcore⟩ : ∃ n', (n' = n ∨ n' = 0 ∧ raw < 0) ∧
      tp.core = { c.tp.core with sndNxt := at' c.tp.sndUna n' } := by
    have hpull : tp.core = { c.tp.core with
        sndNxt := if raw < 0 ∧ f.2 = 0 then c.tp.sndUna else c.tp.sndNxt } := by
      rw [← htp, core_pullBack, hcore,
        show f.1.sndUna = c.tp.sndUna from congrArg Core.sndUna hcore,
        show f.1.sndNxt = c.tp.sndNxt from congrArg Core.sndNxt hcore]
    by_cases hback : raw < 0 ∧ f.2 = 0
    · refine ⟨0, .inr ⟨rfl, hback.1⟩, ?_⟩
      rw [hpull, if_pos hback, at'_zero]
    · refine ⟨n, .inl rfl, ?_⟩
      rw [hpull, if_neg hback, show c.tp.sndNxt = _ from h.sndNxt_eq]
      rfl
  obtain ⟨len, hlen'⟩ : ∃ len, (if decide ((tp.tMaxseg.toNat : ℤ) < raw) = true then
      tp.tMaxseg.toNat else raw.toNat) = len := ⟨_, rfl⟩
  have hlen_le : len = 0 ∨ n' = n ∧ n + len ≤ c.so.soSnd.length := by
    simp only [decide_eq_true_eq] at hlen'
    split at hlen' <;> omega
  have hplan : planSend c = (tp, { off := BitVec.ofNat 32 n, len := len
                                   flags := { tcpOutflags c.tp.tState with
                                     fin := (tcpOutflags c.tp.tState).fin &&
                                       decide (c.so.soSnd.length ≤ n' + len) }
                                   sendalot := (tp.tMaxseg.toNat : ℤ) < raw }) := by
    have hnxt : tp.sndNxt = at' c.tp.sndUna n' := congrArg Core.sndNxt htpcore
    have huna : tp.sndUna = c.tp.sndUna := congrArg Core.sndUna htpcore
    have hstate : tp.tState = c.tp.tState := congrArg Core.tState htpcore
    have hbefore : seqLt (at' c.tp.sndUna n' + BitVec.ofNat 32 len)
        (c.tp.sndUna + BitVec.ofNat 32 c.so.soSnd.length) =
          decide (n' + len < c.so.soSnd.length) := by
      rw [at'_add]
      exact seqLt_at' (by omega) (by omega)
    simp only [planSend, hf, hoff, hlen, hraw, htp, hlen', hnxt, huna, hstate, hbefore]
    simp only [← decide_not, Nat.not_lt]
  rw [hplan]
  refine ⟨n', htpcore, by omega, rfl, hlen_le, rfl⟩

theorem View.back (h : View k cc n m) {n' : ℕ} (hn : n' ≤ m) :
    View { k with sndNxt := at' k.sndUna n' } cc n' m :=
  { h with sndNxt_eq := rfl, le := hn }

theorem View.raise (h : View k cc n m) {a : ℕ} (ha : a < 2 ^ 31) :
    (if seqGt (at' k.sndUna a) k.sndMax = true then at' k.sndUna a else k.sndMax) =
      at' k.sndUna (max m a) := by
  have hlt := h.lt
  rw [h.sndMax_eq, seqGt_at' ha (by omega)]
  by_cases hma : m < a
  · rw [if_pos (decide_eq_true hma), max_eq_right hma.le]
  · rw [decide_eq_false hma, max_eq_left (Nat.not_lt.mp hma)]
    rfl

theorem SendsFin.num {s : TcpState} (h : SendsFin s) : TcpState.finWait1.num ≤ s.num := by
  cases s <;> first | decide | exact absurd h (by unfold SendsFin; decide)

section

variable (h : View k cc n m)
include h

theorem View.persist {len : ℕ} (hlen : len = 0 ∨ n + len ≤ cc) (syn fin : Bool) :
    ∃ m', View (k.advance false syn fin len) cc n m' ∧ m ≤ m' := by
  have hlt := h.lt
  have hle := h.le
  have hcc := h.cc_le
  have hmax := h.max_le
  unfold sndLimit at hcc
  refine ⟨max m (n + len),
    { h with sndMax_eq := ?_, le := by omega, max_le := ?_, fin := ?_ }, le_max_left _ _⟩
  · have := h.raise (a := n + len) (by omega)
    rw [← at'_add, ← h.sndNxt_eq] at this
    exact this
  · change max m (n + len) ≤ max cc 1 + if k.tfSentfin then 1 else 0
    generalize (if k.tfSentfin = true then 1 else 0) = f at hmax ⊢
    omega
  · intro hsent hstate
    have := h.fin hsent hstate
    omega

/-- **Transmit state.** `snd_nxt` moves over the segment. A SYN is alone and first; a FIN is after the
last byte, or after the SYN that is not acknowledged. -/
theorem View.transmit {len : ℕ} {syn fin : Bool} (hlen : len = 0 ∨ n + len ≤ cc)
    (hsyn : syn = true → n = 0 ∧ len = 0 ∧ fin = false ∧ k.tfSentfin = false)
    (hfin : fin = true → SendsFin k.tState ∧ (n + len = cc ∨ cc = 0 ∧ len = 0 ∧ n = 1 ∧ 1 ≤ m)) :
    ∃ n' m', View (k.advance true syn fin len) cc n' m' ∧ m ≤ m' := by
  have hlt := h.lt
  have hle := h.le
  have hcc := h.cc_le
  have hmax := h.max_le
  unfold sndLimit at hcc
  obtain ⟨t, ht⟩ : ∃ t, n + (if syn then 1 else 0) + (if fin then 1 else 0) + len = t := ⟨_, rfl⟩
  have htle : t ≤ n + len + 1 := by
    cases syn with
    | false => cases fin <;> simp at ht <;> omega
    | true =>
      obtain ⟨-, -, rfl, -⟩ := hsyn rfl
      simp at ht
      omega
  have hnxt : k.sndNxt + (if syn then 1 else 0) + (if fin then 1 else 0) + BitVec.ofNat 32 len =
      at' k.sndUna t := by
    rw [← ht, ← at'_add, h.sndNxt_eq]
    congr 1
    cases syn <;> cases fin <;> simp [← at'_add]
  have hraise := h.raise (a := t) (by omega)
  refine ⟨t, max m t, ?_, le_max_left _ _⟩
  unfold Core.advance
  rw [if_pos rfl, hnxt]
  refine { sndNxt_eq := rfl, sndMax_eq := hraise, le := le_max_right _ _, cc_le := h.cc_le,
           max_le := ?_, fin := ?_, late := ?_, early := h.early }
  · change max m t ≤ max cc 1 + if (k.tfSentfin || fin) = true then 1 else 0
    cases fin with
    | false =>
      rw [Bool.or_false]
      have ht' : t ≤ max m (max cc 1) := by
        cases syn with
        | false =>
          simp at ht
          omega
        | true =>
          obtain ⟨rfl, rfl, -, -⟩ := hsyn rfl
          simp at ht
          omega
      generalize (if k.tfSentfin = true then 1 else 0) = f at hmax ⊢
      omega
    | true =>
      rw [Bool.or_true, if_pos rfl]
      have := (hfin rfl).2
      split at hmax <;> omega
  · intro hsent hstate
    cases fin with
    | false =>
      have hs : k.tfSentfin = true := by simpa using hsent
      have hm := h.fin hs hstate
      cases syn with
      | false =>
        simp at ht
        omega
      | true => exact absurd ((hsyn rfl).2.2.2.symm.trans hs) nofun
    | true =>
      have hpos := (hfin rfl).2
      have ht' : t = n + len + 1 := by
        cases syn with
        | false =>
          simp at ht
          omega
        | true => exact absurd (hsyn rfl).2.2.1 nofun
      by_cases hs : k.tfSentfin = true
      · have hm := h.fin hs hstate
        omega
      · rw [if_neg hs] at hmax
        omega
  · intro hsent
    cases fin with
    | false => exact h.late (by simpa using hsent)
    | true => exact .inl (hfin rfl).1.num

/-- **The number of the segment.** A SYN is at `snd_una`; a FIN that is sent again when `snd_nxt` is
already past it goes back by one. -/
theorem View.start {syn fin : Bool} (hsyn : syn = true → k.iss = k.sndUna ∧ fin = false)
    (hfin : fin = true → SendsFin k.tState) :
    ∃ n2, k.start syn fin = { k with sndNxt := at' k.sndUna n2 } ∧ n2 ≤ m ∧
      (syn = true → n2 = 0) ∧
      (syn = false → n2 = n ∧ ¬ (fin = true ∧ k.tfSentfin = true ∧ n = m) ∨
        n2 + 1 = n ∧ fin = true ∧ k.tfSentfin = true ∧ n = m) := by
  have hlt := h.lt
  have hle := h.le
  unfold Core.start
  cases syn with
  | true =>
    obtain ⟨hiss, rfl⟩ := hsyn rfl
    refine ⟨0, ?_, Nat.zero_le m, fun _ => rfl, nofun⟩
    rw [if_pos rfl, Core.resend, if_neg (fun h => absurd h.1 nofun), hiss, at'_zero]
  | false =>
    have hiff : k.sndNxt = k.sndMax ↔ n = m := by
      rw [h.sndNxt_eq, h.sndMax_eq]
      exact at'_inj (by omega) (by omega)
    rw [if_neg (by decide), Core.resend]
    by_cases hback : fin = true ∧ k.tfSentfin = true ∧ n = m
    · obtain ⟨hf, hs, rfl⟩ := hback
      have hpos : 1 ≤ n := by
        have := h.fin hs (hfin hf)
        omega
      refine ⟨n - 1, ?_, by omega, nofun, fun _ => .inr ⟨by omega, hf, hs, rfl⟩⟩
      have hprev := at'_succ_sub_one k.sndUna (n - 1)
      rw [Nat.sub_add_cancel hpos] at hprev
      rw [if_pos ⟨hf, hs, hiff.mpr rfl⟩, h.sndNxt_eq, hprev]
    · refine ⟨n, ?_, hle, nofun, fun _ => .inl ⟨rfl, hback⟩⟩
      rw [if_neg fun hb => hback ⟨hb.1, hb.2.1, hiff.mp hb.2.2⟩, ← h.sndNxt_eq]

/-- **Where a FIN goes** when its data is kept. More outstanding than the bytes and a FIN is a SYN. -/
theorem View.fin_number (hstate : SendsFin k.tState) {len n2 : ℕ} (hge : cc ≤ n + len)
    (hlen : len = 0 ∨ n + len ≤ cc)
    (hn2 : n2 = n ∧ ¬ (k.tfSentfin = true ∧ n = m) ∨ n2 + 1 = n ∧ k.tfSentfin = true ∧ n = m) :
    (¬ cc + (if k.tfSentfin then 1 else 0) < m → n2 + len = cc) ∧
      (cc + (if k.tfSentfin then 1 else 0) < m →
        cc = 0 ∧ len = 0 ∧ (n = 0 ∧ n2 = 0 ∨ 0 < n ∧ n2 = 1)) ∧ (0 < len → n2 = n) := by
  have hle := h.le
  have hmax := h.max_le
  by_cases hs : k.tfSentfin = true
  · have hm := h.fin hs hstate
    simp only [hs, if_true, true_and] at hn2 hmax ⊢
    omega
  · have hn : n2 = n := hn2.elim And.left fun hback => absurd hback.2.1 hs
    rw [if_neg hs] at hmax ⊢
    omega

theorem View.state {s : TcpState} (hfin : k.tfSentfin = true → SendsFin s → SendsFin k.tState)
    (hlate : k.tfSentfin = true → TcpState.finWait1.num ≤ s.num ∨ s = .closed)
    (hearly : s.num ≤ TcpState.synReceived.num → s ≠ .closed →
      k.tState.num ≤ TcpState.synReceived.num ∧ k.tState ≠ .closed) :
    View { k with tState := s } cc n m :=
  { h with
    fin := fun hs hf => h.fin hs (hfin hs hf)
    late := hlate
    early := fun hnum hne => h.early (hearly hnum hne).1 (hearly hnum hne).2 }

theorem View.not_sentfin (hnum : k.tState.num ≤ TcpState.synReceived.num) (hne : k.tState ≠ .closed) :
    k.tfSentfin = false := by
  by_contra hs
  rcases h.late (by simpa using hs) with hl | hl
  · exact absurd (hl.trans hnum) (by decide)
  · exact hne hl

theorem View.ack_eq {a : BitVec 32} (hnew : seqLeq a k.sndUna = false)
    (hmax : seqGt a k.sndMax = false) : ∃ j, a = at' k.sndUna j ∧ 1 ≤ j ∧ j ≤ m := by
  have hlt := h.lt
  have hpos : 0 < (a - k.sndUna).toInt := by simpa [seqLeq] using hnew
  have hle : (a - k.sndMax).toInt ≤ 0 := by simpa [seqGt] using hmax
  obtain ⟨j, hj⟩ : ∃ j, (a - k.sndUna).toNat = j := ⟨_, rfl⟩
  have ha : a = at' k.sndUna j := by
    rw [← hj, at', ofNat_toNat, setWidth_eq, add_comm, sub_add_cancel]
  rw [toInt_eq_toNat_cond, hj] at hpos
  have hj31 : j < 2 ^ 31 ∧ 1 ≤ j := by
    split at hpos <;> omega
  rw [ha, h.sndMax_eq, toInt_at'_sub hj31.1 (by omega)] at hle
  exact ⟨j, ha, hj31.2, by omega⟩

theorem View.acked {j : ℕ} (hj : j ≤ m) :
    (if seqLt k.sndNxt (at' k.sndUna j) = true then at' k.sndUna j else k.sndNxt) =
        at' (at' k.sndUna j) (max n j - j) ∧ k.sndMax = at' (at' k.sndUna j) (m - j) := by
  have hlt := h.lt
  have hle := h.le
  rw [at'_at', at'_at', h.sndNxt_eq, h.sndMax_eq, seqLt_at' (by omega) (by omega)]
  refine ⟨?_, by congr 1; omega⟩
  by_cases hnj : n < j
  · rw [if_pos (decide_eq_true hnj)]
    congr 1
    omega
  rw [decide_eq_false hnj]
  change at' k.sndUna n = _
  congr 1
  omega

end

end view

end Bsd386.Net.Tcp
