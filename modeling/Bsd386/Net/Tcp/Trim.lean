import Bsd386.Net.Tcp.Effect
import Bsd386.Net.Tcp.Input

/-!
# Trimming to the receive window

What `TCP_REASS` gets from `tcp_input`. Each part of the trimming keeps that the chain in hand is a stretch
of the data of the segment (`Holds`), with the numbers, the FIN and the urgent pointer that go with it; the
left side brings its beginning to `rcv_nxt` and the right side its end to the end of the window. What
follows up to `TCP_REASS` leaves the segment alone but for the out-of-band byte (`atReass_trimmed`).
-/

namespace Bsd386.Net.Tcp

open List

open BitVec (ofInt ofInt_natCast toNat_ofNat)

/-! ## Lengths -/

theorem tcpLen_lt {ipLen : BitVec 16} {tiOff : BitVec 4} {len : BitVec 16}
    (h : tcpLen ipLen tiOff = some len) : len.toNat < 2 ^ 15 := by
  unfold tcpLen at h
  by_cases hbad : (tiOff.toNat * 4 : ℤ) < 20 ∨ ipLen.toInt < (tiOff.toNat * 4 : ℤ)
  · rw [if_pos hbad] at h
    exact absurd h nofun
  rw [if_neg hbad] at h
  have hlt : ipLen.toInt < 2 ^ 15 := BitVec.toInt_lt
  obtain ⟨n, hn⟩ : ∃ n : ℕ, ipLen.toInt - (tiOff.toNat * 4 : ℤ) = n :=
    Int.eq_ofNat_of_zero_le (by omega)
  rw [hn, ofInt_natCast] at h
  rw [← Option.some.inj h, toNat_ofNat]
  omega

theorem toInt_short {x : BitVec 16} (h : x.toNat < 2 ^ 15) : x.toInt = x.toNat :=
  BitVec.toInt_eq_toNat_of_lt (by omega)

theorem signExtend_short {x : BitVec 16} (h : x.toNat < 2 ^ 15) :
    x.signExtend 32 = BitVec.ofNat 32 x.toNat := by
  rw [BitVec.signExtend, toInt_short h, ofInt_natCast]

theorem toNat_short_sub {x : BitVec 16} {d : ℕ} (hd : d ≤ x.toNat) :
    (x - BitVec.ofNat 16 d).toNat = x.toNat - d := by
  rw [BitVec.toNat_sub, toNat_ofNat]
  omega

theorem mAdj_head (m : List UInt8) (d : ℕ) : mAdj m d = m.drop d := by
  rw [mAdj, if_pos (Int.natCast_nonneg d), Int.toNat_natCast]

theorem mAdj_tail (m : List UInt8) {d : ℕ} (hd : 0 < d) : mAdj m (-d) = m.take (m.length - d) := by
  rw [mAdj, if_neg (by omega), Int.neg_neg, Int.toNat_natCast]

/-! ## What the chain in hand is -/

/-- The number of the first byte of data of a segment; a SYN has one before it.
Source: tcp_input -/
def firstByte (ti : Tcpiphdr) : BitVec 32 := if ti.flags.syn then ti.seq + 1 else ti.seq

/-- The chain in hand is the data of the segment `ti` from its byte `k` on, for `ti_len` bytes; FIN is set
if these go to its end, and the urgent pointer is where it was. -/
structure Holds (ti : Tcpiphdr) (k : ℕ) (s : Input) : Prop where
  seq : s.ti.seq + (if s.tiflags.syn then 1 else 0) = firstByte ti + BitVec.ofNat 32 k
  len : k + s.ti.len.toNat ≤ ti.data.length
  data : s.ti.data = (ti.data.drop k).take s.ti.len.toNat
  fin : s.tiflags.fin = true → ti.flags.fin = true ∧ k + s.ti.len.toNat = ti.data.length
  urg : s.tiflags.urg = true →
    ti.flags.urg = true ∧ s.ti.seq + s.ti.urp.setWidth 32 = ti.seq + ti.urp.setWidth 32

section holds

variable {ti : Tcpiphdr} {k : ℕ} {s : Input}

theorem holds_start (hdata : ti.data.length = ti.len.toNat) (c : Conn) : Holds ti 0 ⟨c, ti, ti.flags⟩ where
  seq := by
    unfold firstByte
    split_ifs
    · rw [BitVec.add_assoc]
      rfl
    · rfl
  len := by
    rw [Nat.zero_add, hdata]
  data := by
    rw [drop_zero, ← hdata, take_length]
  fin h := ⟨h, by rw [Nat.zero_add, hdata]⟩
  urg h := ⟨h, rfl⟩

section

variable (h : Holds ti k s)
include h

theorem Holds.length : s.ti.data.length = s.ti.len.toNat := by
  have hlen := h.len
  rw [h.data, length_take, length_drop]
  omega

theorem Holds.conn (c : Conn) : Holds ti k { s with conn := c } :=
  ⟨h.seq, h.len, h.data, h.fin, h.urg⟩

theorem Holds.clearFin :
    Holds ti k { s with tiflags := { s.tiflags with fin := false } } :=
  ⟨h.seq, h.len, h.data, nofun, h.urg⟩

theorem holds_dropSyn (hsyn : s.tiflags.syn = true) : Holds ti k (dropSyn s) where
  seq := by
    have hseq := h.seq
    rw [if_pos hsyn] at hseq
    exact (BitVec.add_zero _).trans hseq
  len := h.len
  data := h.data
  fin := h.fin
  urg hurg := by
    obtain ⟨hset, hurp⟩ := Bool.and_eq_true_iff.mp hurg
    have hlt : 1 < s.ti.urp.toNat := of_decide_eq_true hurp
    obtain ⟨hwas, hsum⟩ := h.urg hset
    refine ⟨hwas, ?_⟩
    rw [← hsum]
    change s.ti.seq + BitVec.ofNat 32 1 +
      (if 1 < s.ti.urp.toNat then s.ti.urp - BitVec.ofNat 16 1 else s.ti.urp).setWidth 32 = _
    rw [if_pos hlt, ← BitVec.ofNat_toNat 32, ← BitVec.ofNat_toNat 32 s.ti.urp, toNat_short_sub hlt.le,
      BitVec.add_assoc, ← BitVec.ofNat_add, Nat.add_sub_cancel' hlt.le]

theorem holds_dropLeft (hsyn : s.tiflags.syn = false) {d : ℕ} (hd : d ≤ s.ti.len.toNat) :
    Holds ti (k + d) (dropLeft s d) := by
  have hlen : (dropLeft s d).ti.len.toNat = s.ti.len.toNat - d := by
    change (s.ti.len - ofInt 16 d).toNat = _
    rw [ofInt_natCast, toNat_short_sub hd]
  constructor
  · have hseq := h.seq
    rw [hsyn] at hseq
    change s.ti.seq + ofInt 32 d + (if s.tiflags.syn then 1 else 0) = _
    have hs : s.ti.seq = firstByte ti + BitVec.ofNat 32 k := (BitVec.add_zero _).symm.trans hseq
    rw [hsyn, ofInt_natCast, hs, BitVec.ofNat_add, ← BitVec.add_assoc]
    exact BitVec.add_zero _
  · have := h.len
    rw [hlen]
    omega
  · rw [hlen]
    change mAdj s.ti.data d = _
    rw [mAdj_head, h.data, drop_take, drop_drop]
  · intro hfin
    obtain ⟨hwas, hend⟩ := h.fin hfin
    refine ⟨hwas, ?_⟩
    rw [hlen]
    omega
  · intro hurg
    obtain ⟨hset, hurp⟩ := Bool.and_eq_true_iff.mp hurg
    have hlt : (d : ℤ) < s.ti.urp.toNat := of_decide_eq_true hurp
    obtain ⟨hwas, hsum⟩ := h.urg hset
    refine ⟨hwas, ?_⟩
    rw [← hsum]
    change s.ti.seq + ofInt 32 d +
      (if (d : ℤ) < s.ti.urp.toNat then s.ti.urp - ofInt 16 d else 0).setWidth 32 = _
    have hle : d ≤ s.ti.urp.toNat := by omega
    rw [if_pos hlt, ofInt_natCast, ofInt_natCast, ← BitVec.ofNat_toNat 32,
      ← BitVec.ofNat_toNat 32 s.ti.urp, toNat_short_sub hle, BitVec.add_assoc, ← BitVec.ofNat_add,
      Nat.add_sub_cancel' hle]

theorem holds_dropRight {d : ℕ} (hpos : 0 < d) (hd : d ≤ s.ti.len.toNat) :
    Holds ti k (dropRight s d) := by
  have hlen : (dropRight s d).ti.len.toNat = s.ti.len.toNat - d := by
    change (s.ti.len - ofInt 16 d).toNat = _
    rw [ofInt_natCast, toNat_short_sub hd]
  constructor
  · exact h.seq
  · have := h.len
    rw [hlen]
    omega
  · rw [hlen]
    change mAdj s.ti.data (-d) = _
    rw [mAdj_tail _ hpos, h.length]
    conv_lhs => rw [h.data]
    rw [take_take, Nat.min_eq_left (Nat.sub_le _ _)]
  · exact nofun
  · exact h.urg

end

end holds

/-! ## The beginning and the end -/

/-- No text and no FIN is left. Source: tcp_input -/
def Empty (s : Input) : Prop := s.ti.len.toNat = 0 ∧ s.tiflags.fin = false

/-- The connection, but for an acknowledgement that is due. -/
def SameUpToAck (c c' : Conn) : Prop := c' = c ∨ c' = ackNow c

theorem SameUpToAck.trans {a b c : Conn} (hab : SameUpToAck a b) (hbc : SameUpToAck b c) :
    SameUpToAck a c := by
  rcases hab with rfl | rfl
  · exact hbc
  · rcases hbc with rfl | rfl
    · exact .inr rfl
    · exact .inr rfl

theorem SameUpToAck.tp {c c' : Conn} (h : SameUpToAck c c') :
    c'.tp.rcvNxt = c.tp.rcvNxt ∧ c'.tp.rcvWnd = c.tp.rcvWnd ∧ c'.tp.tState = c.tp.tState ∧
      c'.tp.segs = c.tp.segs := by
  rcases h with rfl | rfl
  · exact ⟨rfl, rfl, rfl, rfl⟩
  · exact ⟨rfl, rfl, rfl, rfl⟩

/-- The segment in hand begins at `rcv_nxt` or after it. -/
def Begins (rcvNxt : BitVec 32) (s : Input) : Prop := seqLeq rcvNxt s.ti.seq = true

/-- It ends at the end of the window or before it. -/
def Ends (rcvNxt : BitVec 32) (rcvWnd : BitVec 16) (s : Input) : Prop :=
  seqLeq (s.ti.seq + s.ti.len.signExtend 32) (rcvNxt + rcvWnd.setWidth 32) = true

theorem seqLeq_refl (a : BitVec 32) : seqLeq a a = true := by
  rw [seqLeq, BitVec.sub_self]
  rfl

theorem eq_add_of_toInt_sub {a b : BitVec 32} {d : ℕ} (h : (a - b).toInt = d) :
    a = b + BitVec.ofNat 32 d := by
  rw [← ofInt_natCast, ← h, BitVec.ofInt_toInt, BitVec.add_comm, BitVec.sub_add_cancel]

section left

variable {env : Env} {ti : Tcpiphdr} {k : ℕ} {s s' : Input}

theorem dropLeading_spec (hshort : ti.data.length < 2 ^ 15) (hs : Holds ti k s)
    (hsyn : s.tiflags.syn = false) {d : ℕ} (hd : s.ti.seq + BitVec.ofNat 32 d = s.conn.tp.rcvNxt)
    (h : dropLeading env s d = .ok s') :
    (∃ k', Holds ti k' s') ∧ SameUpToAck s.conn s'.conn ∧ (Begins s.conn.tp.rcvNxt s' ∨ Empty s') := by
  have hbound := hs.len
  have hlen : s.ti.len.toInt = s.ti.len.toNat := toInt_short (by omega)
  have hplain : d ≤ s.ti.len.toNat → s' = dropLeft s d →
      (∃ k', Holds ti k' s') ∧ SameUpToAck s.conn s'.conn ∧
        (Begins s.conn.tp.rcvNxt s' ∨ Empty s') := by
    rintro hle rfl
    refine ⟨⟨_, holds_dropLeft hs hsyn hle⟩, .inl rfl, .inl ?_⟩
    change seqLeq _ (s.ti.seq + ofInt 32 d) = true
    rw [ofInt_natCast, hd]
    exact seqLeq_refl _
  unfold dropLeading at h
  rw [hlen] at h
  by_cases hall : (s.ti.len.toNat : ℤ) < d ∨ (d : ℤ) = s.ti.len.toNat ∧ s.tiflags.fin = false
  · rw [if_pos hall] at h
    by_cases hone : OneLeft env s d
    · -- nothing is left, and the sequence number is one short of `rcv_nxt`
      rw [if_pos hone] at h
      obtain rfl := (Except.ok.inj h).symm
      refine ⟨⟨_, holds_dropLeft (hs.clearFin.conn (ackNow s.conn)) hsyn le_rfl⟩, .inr rfl,
        .inr ⟨?_, rfl⟩⟩
      change (s.ti.len - ofInt 16 s.ti.len.toNat).toNat = 0
      rw [ofInt_natCast, toNat_short_sub le_rfl, Nat.sub_self]
    · rw [if_neg hone] at h
      by_cases hout : (d : ℤ) ≠ 0 ∨ s.tiflags.ack = false
      · rw [if_pos hout] at h
        exact absurd h nofun
      · rw [if_neg hout] at h
        exact hplain (by omega) (Except.ok.inj h).symm
  · rw [if_neg hall] at h
    exact hplain (by omega) (Except.ok.inj h).symm

theorem trimLeft_spec (hshort : ti.data.length < 2 ^ 15) (hs : Holds ti k s)
    (h : trimLeft env s = .ok s') :
    (∃ k', Holds ti k' s') ∧ SameUpToAck s.conn s'.conn ∧ (Begins s.conn.tp.rcvNxt s' ∨ Empty s') := by
  unfold trimLeft at h
  by_cases hpos : 0 < (s.conn.tp.rcvNxt - s.ti.seq).toInt
  · rw [if_pos hpos] at h
    obtain ⟨d, hd⟩ : ∃ d : ℕ, (s.conn.tp.rcvNxt - s.ti.seq).toInt = d :=
      Int.eq_ofNat_of_zero_le hpos.le
    have hseq := (eq_add_of_toInt_sub hd).symm
    rw [hd] at h hpos
    cases hsyn : s.tiflags.syn with
    | true =>
      rw [if_pos hsyn] at h
      obtain ⟨e, rfl⟩ : ∃ e, d = e + 1 := ⟨d - 1, by omega⟩
      rw [show ((e + 1 : ℕ) : ℤ) - 1 = e by omega] at h
      refine dropLeading_spec (s := dropSyn s) hshort (holds_dropSyn hs hsyn) rfl ?_ h
      rw [BitVec.ofNat_add, BitVec.add_comm (BitVec.ofNat 32 e), ← BitVec.add_assoc] at hseq
      exact hseq
    | false =>
      rw [if_neg (by rw [hsyn]; nofun)] at h
      exact dropLeading_spec hshort hs hsyn hseq h
  · rw [if_neg hpos] at h
    obtain rfl := Except.ok.inj h
    exact ⟨⟨k, hs⟩, .inl rfl, .inl (decide_eq_true (not_lt.mp hpos))⟩

end left

section right

variable {ti : Tcpiphdr} {k : ℕ} {s s' : Input}

theorem dropRight_spec (hs : Holds ti k s) (hshort : s.ti.len.toNat < 2 ^ 15) {d : ℕ} (hpos : 0 < d)
    (hd : d ≤ s.ti.len.toNat) {stop : BitVec 32}
    (hstop : s.ti.seq + s.ti.len.signExtend 32 = stop + BitVec.ofNat 32 d) :
    Holds ti k (dropRight s d) ∧
      (dropRight s d).ti.seq + (dropRight s d).ti.len.signExtend 32 = stop := by
  have hlen : (dropRight s d).ti.len.toNat = s.ti.len.toNat - d := by
    change (s.ti.len - ofInt 16 d).toNat = _
    rw [ofInt_natCast, toNat_short_sub hd]
  refine ⟨holds_dropRight hs hpos hd, ?_⟩
  rw [signExtend_short (by omega), hlen]
  rw [signExtend_short hshort, ← Nat.sub_add_cancel hd, BitVec.ofNat_add, ← BitVec.add_assoc] at hstop
  exact add_right_cancel hstop

theorem trimRight_spec (hshort : ti.data.length < 2 ^ 15) (hs : Holds ti k s)
    (h : trimRight s = .ok s') :
    Holds ti k s' ∧ SameUpToAck s.conn s'.conn ∧ Ends s.conn.tp.rcvNxt s.conn.tp.rcvWnd s' ∧
      s'.ti.seq = s.ti.seq ∧ (Empty s → Empty s') := by
  have hbound := hs.len
  have hlen : s.ti.len.toInt = s.ti.len.toNat := toInt_short (by omega)
  unfold trimRight at h
  dsimp only at h
  obtain ⟨stop, hstop⟩ : ∃ stop, stop = s.conn.tp.rcvNxt + s.conn.tp.rcvWnd.setWidth 32 := ⟨_, rfl⟩
  unfold Ends
  rw [← hstop] at h ⊢
  by_cases hpos : 0 < ((s.ti.seq + s.ti.len.signExtend 32) - stop).toInt
  · obtain ⟨d, hd⟩ : ∃ d : ℕ, ((s.ti.seq + s.ti.len.signExtend 32) - stop).toInt = d :=
      Int.eq_ofNat_of_zero_le hpos.le
    have hend := eq_add_of_toInt_sub hd
    -- what both ways that go on have in common
    have hdrop : ∀ c, SameUpToAck s.conn c → d ≤ s.ti.len.toNat →
        s' = dropRight { s with conn := c } d →
        Holds ti k s' ∧ SameUpToAck s.conn s'.conn ∧
          seqLeq (s'.ti.seq + s'.ti.len.signExtend 32) stop = true ∧
          s'.ti.seq = s.ti.seq ∧ (Empty s → Empty s') := by
      rintro c hc hle rfl
      have hshort' : s.ti.len.toNat < 2 ^ 15 := by omega
      have hpos' : 0 < d := by omega
      obtain ⟨hholds, hat⟩ := dropRight_spec (hs.conn c) hshort' hpos' hle hend
      refine ⟨hholds, hc, ?_, rfl, fun hempty => ?_⟩
      · rw [hat]
        exact seqLeq_refl _
      · have := hempty.1
        omega
    rw [if_pos hpos, hd, hlen] at h
    by_cases hall : (s.ti.len.toNat : ℤ) ≤ d
    · rw [if_pos hall] at h
      by_cases hnew : s.tiflags.syn = true ∧ s.conn.tp.tState = .timeWait ∧
          seqGt s.ti.seq s.conn.tp.rcvNxt = true
      · rw [if_pos hnew] at h
        exact absurd h nofun
      rw [if_neg hnew] at h
      by_cases hclosed : s.conn.tp.rcvWnd = 0 ∧ s.ti.seq = s.conn.tp.rcvNxt
      · rw [if_pos hclosed] at h
        refine hdrop (ackNow s.conn) (.inr rfl) ?_ (Except.ok.inj h).symm
        -- the window is closed, so that the segment ends as far after it as it is long
        rw [hstop, hclosed.1, hclosed.2, signExtend_short (by omega)] at hd
        change (at' s.conn.tp.rcvNxt s.ti.len.toNat - at' s.conn.tp.rcvNxt 0).toInt = d at hd
        rw [toInt_at'_sub (by omega) (by omega)] at hd
        omega
      · rw [if_neg hclosed] at h
        exact absurd h nofun
    · rw [if_neg hall] at h
      exact hdrop s.conn (.inl rfl) (by omega) (Except.ok.inj h).symm
  · rw [if_neg hpos] at h
    obtain rfl := Except.ok.inj h
    exact ⟨hs, .inl rfl, decide_eq_true (not_lt.mp hpos), rfl, id⟩

end right

/-! ## Up to `TCP_REASS` -/

/-- What acknowledgements do not touch of the receive side; but `tcp_reass` presents what is queued at
`rcv_nxt` when a connection becomes established.
Source: tcp_input -/
structure SameWindow (c c' : Conn) : Prop where
  rcvWnd : c'.tp.rcvWnd = c.tp.rcvWnd
  soOobinline : c'.so.soOobinline = c.so.soOobinline
  rcvNxt : c'.tp.rcvNxt = c.tp.rcvNxt ∨
    c.tp.tState = .synReceived ∧ ∃ q ∈ c.tp.segs.head?, q.seq = c.tp.rcvNxt

section frame

theorem presentLoop_frame (tp : Tcpcb) (so : Socket) (flags : Bool) (segs : List Tcpiphdr) :
    (presentLoop tp so flags segs).1.tp.rcvWnd = tp.rcvWnd ∧
      (presentLoop tp so flags segs).1.so.soOobinline = so.soOobinline := by
  induction segs generalizing tp so flags with
  | nil => exact ⟨rfl, rfl⟩
  | cons ti qs ih =>
    rw [presentLoop]
    split_ifs with hseq
    · exact ih _ _ _
    · exact ih _ _ _
    · exact ⟨rfl, rfl⟩

theorem present_frame (c : Conn) : (present c).1.tp.rcvWnd = c.tp.rcvWnd ∧
    (present c).1.so.soOobinline = c.so.soOobinline ∧
    ((present c).1.tp.rcvNxt = c.tp.rcvNxt ∨ ∃ q ∈ c.tp.segs.head?, q.seq = c.tp.rcvNxt) := by
  unfold present
  by_cases hsyn : c.tp.tState.haveRcvdSyn = false
  · rw [if_pos hsyn]
    exact ⟨rfl, rfl, .inl rfl⟩
  rw [if_neg hsyn]
  cases hsegs : c.tp.segs with
  | nil => exact ⟨rfl, rfl, .inl rfl⟩
  | cons ti qs =>
    dsimp only
    by_cases hseq : ti.seq ≠ c.tp.rcvNxt
    · rw [if_pos hseq]
      exact ⟨rfl, rfl, .inl rfl⟩
    rw [if_neg hseq, ← and_assoc]
    refine ⟨?_, .inr ⟨ti, rfl, not_not.mp hseq⟩⟩
    split_ifs
    · exact ⟨rfl, rfl⟩
    · exact presentLoop_frame _ _ _ _

variable {env : Env} {s s' : Input}

theorem ackTimers_frame (tp : Tcpcb) (ack : BitVec 32) :
    (ackTimers tp ack).rcvWnd = tp.rcvWnd ∧ (ackTimers tp ack).rcvNxt = tp.rcvNxt := by
  unfold ackTimers
  by_cases h : tp.tRtt ≠ 0 ∧ seqGt ack tp.tRtseq = true
  · rw [if_pos h]
    exact ⟨rfl, rfl⟩
  · rw [if_neg h]
    exact ⟨rfl, rfl⟩

/-- What a part of `tcp_input` after the trimming leaves alone.
Source: tcp_input -/
def Passes (s s' : Input) : Prop :=
  s'.ti = s.ti ∧ s'.tiflags = s.tiflags ∧ s'.conn.tp.rcvWnd = s.conn.tp.rcvWnd ∧
    s'.conn.so.soOobinline = s.conn.so.soOobinline ∧ s'.conn.tp.rcvNxt = s.conn.tp.rcvNxt

theorem duplicateAck_frame (h : duplicateAck env s = .ok s') : Passes s s' := by
  unfold duplicateAck at h
  dsimp only at h
  split_ifs at h
  · obtain rfl := Except.ok.inj h
    exact ⟨rfl, rfl, rfl, rfl, rfl⟩
  · obtain rfl := Except.ok.inj h
    exact ⟨rfl, rfl, rfl, rfl, rfl⟩

theorem newAck_frame (h : newAck env s = .ok s') : Passes s s' := by
  obtain ⟨hwnd, hnxt⟩ := ackTimers_frame (retractCwnd s.conn.tp) s.ti.ack
  unfold newAck at h
  dsimp only at h
  by_cases hmuch : seqGt s.ti.ack (retractCwnd s.conn.tp).sndMax = true
  · rw [if_pos hmuch] at h
    exact absurd h nofun
  rw [if_neg hmuch] at h
  split_ifs at h
  · obtain rfl := Except.ok.inj h
    exact ⟨rfl, rfl, hwnd, rfl, hnxt⟩
  · obtain rfl := Except.ok.inj h
    exact ⟨rfl, rfl, hwnd, rfl, hnxt⟩

theorem ackEstablished_frame (h : ackEstablished env s = .ok s') : Passes s s' := by
  unfold ackEstablished at h
  split_ifs at h
  · exact duplicateAck_frame h
  · exact newAck_frame h

theorem ackProcess_frame (h : ackProcess env s = .ok s') :
    s'.ti = s.ti ∧ s'.tiflags = s.tiflags ∧ SameWindow s.conn s'.conn := by
  unfold ackProcess at h
  by_cases hstate : s.conn.tp.tState = .synReceived
  · rw [if_pos hstate] at h
    by_cases hbad : seqGt s.conn.tp.sndUna s.ti.ack = true ∨ seqGt s.ti.ack s.conn.tp.sndMax = true
    · rw [if_pos hbad] at h
      exact absurd h nofun
    rw [if_neg hbad] at h
    obtain ⟨hti, hflags, hwnd, hinline, hnxt⟩ := ackEstablished_frame h
    obtain ⟨hwnd', hinline', hnxt'⟩ :=
      present_frame { s.conn with tp := { s.conn.tp with tState := .established } }
    refine ⟨hti, hflags, hwnd.trans hwnd', hinline.trans hinline', ?_⟩
    rcases hnxt' with hsame | hqueued
    · exact .inl (hnxt.trans hsame)
    · exact .inr ⟨hstate, hqueued⟩
  · rw [if_neg hstate] at h
    split_ifs at h
    · obtain ⟨hti, hflags, hwnd, hinline, hnxt⟩ := ackEstablished_frame h
      exact ⟨hti, hflags, hwnd, hinline, .inl hnxt⟩
    · obtain rfl := Except.ok.inj h
      exact ⟨rfl, rfl, rfl, rfl, .inl rfl⟩

theorem updateWindow_frame (s : Input) : Passes s (updateWindow s) := by
  unfold updateWindow
  dsimp only
  split
  · exact ⟨rfl, rfl, rfl, rfl, rfl⟩
  · exact ⟨rfl, rfl, rfl, rfl, rfl⟩

/-- The out-of-band byte is taken out of the chain. Source: tcp_pulloutofband. -/
def OobTaken (s s' : Input) : Prop :=
  s.tiflags.urg = true ∧ s.conn.so.soOobinline = false ∧ 0 < s.ti.urp.toNat ∧
    s.ti.urp.toNat ≤ s.ti.len.toNat ∧ s'.ti.data = s.ti.data.eraseIdx (s.ti.urp.toNat - 1)

theorem urgent_frame (hshort : s.ti.len.toNat < 2 ^ 15) (h : urgent s = .ok s') :
    (s'.ti.seq = s.ti.seq ∧ s'.ti.len = s.ti.len ∧ s'.tiflags.fin = s.tiflags.fin ∧
      s'.conn.tp.rcvWnd = s.conn.tp.rcvWnd ∧ s'.conn.so.soOobinline = s.conn.so.soOobinline ∧
      s'.conn.tp.rcvNxt = s.conn.tp.rcvNxt) ∧
    (s'.ti.data = s.ti.data ∨ OobTaken s s') := by
  unfold urgent at h
  dsimp only at h
  by_cases hurg : s.tiflags.urg = true ∧ s.ti.urp ≠ 0 ∧ s.conn.tp.tState.haveRcvdFin = false
  · rw [if_pos hurg] at h
    by_cases hbig : sbMax < s.ti.urp.toNat + s.conn.so.soRcv.length
    · rw [if_pos hbig] at h
      obtain rfl := Except.ok.inj h
      exact ⟨⟨rfl, rfl, rfl, rfl, rfl, rfl⟩, .inl rfl⟩
    rw [if_neg hbig] at h
    -- marking the stream leaves the window and the option
    obtain ⟨c, hc⟩ : ∃ c, c = if seqGt (s.ti.seq + s.ti.urp.setWidth 32) s.conn.tp.rcvUp = true then
        markUrgent s.conn (s.ti.seq + s.ti.urp.setWidth 32) else s.conn := ⟨_, rfl⟩
    have hsame : c.tp.rcvWnd = s.conn.tp.rcvWnd ∧ c.tp.rcvNxt = s.conn.tp.rcvNxt ∧
        c.so.soOobinline = s.conn.so.soOobinline := by
      rw [hc]
      split_ifs
      · exact ⟨rfl, rfl, rfl⟩
      · exact ⟨rfl, rfl, rfl⟩
    obtain ⟨hwnd, hnxt, hinline⟩ := hsame
    rw [← hc] at h
    by_cases hpull : (s.ti.urp.toNat : ℤ) ≤ s.ti.len.toInt ∧ c.so.soOobinline = false
    · rw [if_pos hpull] at h
      unfold tcpPulloutofband at h
      dsimp only at h
      cases hbyte : s.ti.data[s.ti.urp.toNat - 1]? with
      | none =>
        rw [hbyte] at h
        exact absurd h nofun
      | some b =>
        rw [hbyte] at h
        obtain rfl := Except.ok.inj h
        obtain ⟨hle, hoff⟩ := hpull
        rw [toInt_short hshort] at hle
        have hne : s.ti.urp.toNat ≠ 0 := fun h0 => hurg.2.1 (BitVec.eq_of_toNat_eq h0)
        exact ⟨⟨rfl, rfl, rfl, hwnd, hinline, hnxt⟩,
          .inr ⟨hurg.1, hinline ▸ hoff, Nat.pos_of_ne_zero hne, by omega, rfl⟩⟩
    · rw [if_neg hpull] at h
      obtain rfl := Except.ok.inj h
      exact ⟨⟨rfl, rfl, rfl, hwnd, hinline, hnxt⟩, .inl rfl⟩
  · rw [if_neg hurg] at h
    obtain rfl := Except.ok.inj h
    exact ⟨⟨rfl, rfl, rfl, rfl, rfl, rfl⟩, .inl rfl⟩

end frame

/-! ## What `TCP_REASS` gets -/

/-- The bytes of a segment for the `len` sequence numbers from `seq` on. -/
def bytesFrom (ti : Tcpiphdr) (seq : BitVec 32) (len : ℕ) : List UInt8 :=
  (ti.data.drop (seq - firstByte ti).toNat).take len

/-- What is in hand at `TCP_REASS` lies in the window and is the part of the segment `ti` that it says it
is, but for the out-of-band byte where that is not left in line; and FIN is set only if the segment is
there to its end.
Source: tcp_input -/
structure Trimmed (ti : Tcpiphdr) (rcvNxt : BitVec 32) (rcvWnd : BitVec 16) (inline : Bool) (s : Input) :
    Prop where
  begins : seqLeq rcvNxt s.ti.seq = true
  ends : seqLeq (s.ti.seq + s.ti.len.signExtend 32) (rcvNxt + rcvWnd.setWidth 32) = true
  inside : (s.ti.seq - rcvNxt).toNat < 2 ^ 31 - 2 ^ 15 →
    (s.ti.seq - rcvNxt).toNat + s.ti.len.toNat ≤ rcvWnd.toNat
  within : (s.ti.seq - firstByte ti).toNat + s.ti.len.toNat ≤ ti.data.length
  chain : s.ti.data = bytesFrom ti s.ti.seq s.ti.len.toNat ∨
    ti.flags.urg = true ∧ inline = false ∧ ∃ j < s.ti.len.toNat,
      s.ti.seq + BitVec.ofNat 32 (j + 1) = ti.seq + ti.urp.setWidth 32 ∧
      s.ti.data = (bytesFrom ti s.ti.seq s.ti.len.toNat).eraseIdx j
  fin : s.tiflags.fin = true → ti.flags.fin = true ∧
    s.ti.seq + s.ti.len.signExtend 32 = firstByte ti + ti.len.signExtend 32

theorem inside_of_ends {rcvNxt : BitVec 32} {rcvWnd : BitVec 16} {s : Input}
    (hshort : s.ti.len.toNat < 2 ^ 15) (h : Ends rcvNxt rcvWnd s)
    (hnear : (s.ti.seq - rcvNxt).toNat < 2 ^ 31 - 2 ^ 15) :
    (s.ti.seq - rcvNxt).toNat + s.ti.len.toNat ≤ rcvWnd.toNat := by
  obtain ⟨p, hp⟩ : ∃ p, p = (s.ti.seq - rcvNxt).toNat := ⟨_, rfl⟩
  have hseq : s.ti.seq = at' rcvNxt p := by
    rw [at', hp, BitVec.ofNat_toNat, BitVec.setWidth_eq, BitVec.add_comm, BitVec.sub_add_cancel]
  have hle : (at' rcvNxt (p + s.ti.len.toNat) - at' rcvNxt rcvWnd.toNat).toInt ≤ 0 := by
    rw [← at'_add, ← hseq, ← signExtend_short hshort, at', BitVec.ofNat_toNat]
    exact of_decide_eq_true h
  rw [← hp] at hnear ⊢
  rw [toInt_at'_sub (by omega) (by omega)] at hle
  omega

theorem checkFlags_spec {s s' : Input} (h : checkFlags s = .ok s') :
    s' = s ∧ s.tiflags.syn = false := by
  unfold checkFlags at h
  split_ifs at h with hrst hsyn hack
  exact ⟨(Except.ok.inj h).symm, Bool.eq_false_of_not_eq_true hsyn⟩

theorem afterClose_spec {s s' : Input} (h : afterClose s = .ok s') : s' = s := by
  unfold afterClose at h
  split_ifs at h
  exact (Except.ok.inj h).symm

theorem of_bind_ok {ε α β : Type} {x : Except ε α} {f : α → Except ε β} {b : β}
    (h : (x >>= f) = .ok b) : ∃ a, x = .ok a ∧ f a = .ok b := by
  cases x with
  | error e => exact absurd h nofun
  | ok a => exact ⟨a, rfl, h⟩

variable {env : Env} {space : ℤ} {c : Conn} {ti : Tcpiphdr} {s : Input}

/-- What is in hand before urgent data is looked at. Source: tcp_input -/
structure BeforeUrgent (c : Conn) (ti : Tcpiphdr) (k : ℕ) (s : Input) : Prop where
  holds : Holds ti k s
  noSyn : s.tiflags.syn = false
  begins : Begins c.tp.rcvNxt s ∨ Empty s
  ends : Ends c.tp.rcvNxt c.tp.rcvWnd s
  window : SameWindow c s.conn

theorem toDodata_beforeUrgent (hshort : ti.data.length < 2 ^ 15)
    (hdata : ti.data.length = ti.len.toNat) (h : toDodata env space c ti = .ok s) :
    ∃ k s1, BeforeUrgent (setRcvWnd c space) ti k s1 ∧ urgent s1 = .ok s := by
  obtain ⟨a, hleft, h1⟩ := of_bind_ok h
  obtain ⟨a', hclose, h2⟩ := of_bind_ok h1
  obtain ⟨b, hright, h3⟩ := of_bind_ok h2
  obtain ⟨b', hflags, h4⟩ := of_bind_ok h3
  obtain ⟨d, hack, hurgent⟩ := of_bind_ok h4
  obtain ⟨⟨k, ha⟩, hca, hbegin⟩ := trimLeft_spec hshort (holds_start hdata _) hleft
  obtain rfl := afterClose_spec hclose
  obtain ⟨hb, hcb, hends, hseq, hempty⟩ := trimRight_spec hshort ha hright
  obtain ⟨rfl, hsyn⟩ := checkFlags_spec hflags
  obtain ⟨hti, htf, hwindow⟩ := ackProcess_frame hack
  obtain ⟨huti, hutf, huwnd, huinline, hunxt⟩ := updateWindow_frame d
  have hc := hca.trans hcb
  obtain ⟨hnxt, hwnd, hstate, hsegs⟩ := hc.tp
  have hso : b'.conn.so = (setRcvWnd c space).so := by
    rcases hc with hc | hc
    · rw [hc]
    · rw [hc]
      rfl
  obtain ⟨hnxta, hwnda, -, -⟩ := hca.tp
  refine ⟨k, updateWindow d, ⟨?_, ?_, ?_, ?_, ?_⟩, hurgent⟩
  · constructor
    · rw [huti, hti, hutf, htf]
      exact hb.seq
    · rw [huti, hti]
      exact hb.len
    · rw [huti, hti]
      exact hb.data
    · rw [huti, hti, hutf, htf]
      exact hb.fin
    · rw [huti, hti, hutf, htf]
      exact hb.urg
  · rw [hutf, htf]
    exact hsyn
  · unfold Begins Empty
    rw [huti, hti, hutf, htf, hseq]
    exact hbegin.imp id hempty
  · unfold Ends
    rw [huti, hti, ← hnxta, ← hwnda]
    exact hends
  · refine ⟨huwnd.trans (hwindow.rcvWnd.trans hwnd),
      huinline.trans (hwindow.soOobinline.trans (congrArg _ hso)), ?_⟩
    rcases hwindow.rcvNxt with hsame | ⟨hsynrcvd, hqueued⟩
    · exact .inl (hunxt.trans (hsame.trans hnxt))
    · rw [hsegs, hnxt] at hqueued
      exact .inr ⟨hstate.symm.trans hsynrcvd, hqueued⟩

/-- **Window trimming.** What `TCP_REASS` gets lies between the `rcv_nxt` and the end of the window that
the segment was trimmed against; its chain holds the bytes of the segment for its sequence numbers, but for
an out-of-band byte; and `tiflags` has a FIN only if no trailing byte was dropped. The connection still has
that window, and that `rcv_nxt` unless it left `SYN_RECEIVED` with a segment queued there. Kind: P. -/
theorem atReass_trimmed {ipLen : BitVec 16} {tiOff : BitVec 4}
    (hlen : tcpLen ipLen tiOff = some ti.len) (hdata : ti.data.length = ti.len.toNat)
    (h : atReass env space c ti = some s) :
    Trimmed ti c.tp.rcvNxt (setRcvWnd c space).tp.rcvWnd c.so.soOobinline s ∧
      SameWindow (setRcvWnd c space) s.conn := by
  have hshort : ti.data.length < 2 ^ 15 := hdata ▸ tcpLen_lt hlen
  unfold atReass at h
  cases hto : toDodata env space c ti with
  | error e =>
    rw [hto] at h
    exact absurd h nofun
  | ok s' =>
    rw [hto] at h
    obtain ⟨htext, rfl⟩ : s'.hasText = true ∧ s' = s := by
      dsimp only at h
      split_ifs at h with htext
      exact ⟨htext, Option.some.inj h⟩
    obtain ⟨k, s1, hs1, hurgent⟩ := toDodata_beforeUrgent hshort hdata hto
    have hk := hs1.holds.len
    have hlen1 : s1.ti.len.toNat < 2 ^ 15 := by omega
    obtain ⟨⟨hseq, hlen', hfin, hwnd, hinline, hnxt⟩, hchain⟩ := urgent_frame hlen1 hurgent
    have hfirst : s1.ti.seq = firstByte ti + BitVec.ofNat 32 k := by
      have := hs1.holds.seq
      rw [hs1.noSyn] at this
      exact (BitVec.add_zero _).symm.trans this
    have hkeep : (s1.ti.seq - firstByte ti).toNat = k := by
      rw [hfirst, BitVec.add_comm, BitVec.add_sub_cancel, toNat_ofNat]
      omega
    have hbytes : s1.ti.data = bytesFrom ti s1.ti.seq s1.ti.len.toNat := by
      rw [bytesFrom, hkeep]
      exact hs1.holds.data
    have hbegins : Begins c.tp.rcvNxt s1 := by
      rcases hs1.begins with hbegin | ⟨hzero, hnofin⟩
      · exact hbegin
      · -- nothing was left, so that there is no text for `TCP_REASS`
        rw [Input.hasText, hlen', hfin, hnofin] at htext
        exact absurd (BitVec.eq_of_toNat_eq hzero) (by simpa using (Bool.and_eq_true_iff.mp htext).1)
    refine ⟨?_, hwnd.trans hs1.window.rcvWnd, hinline.trans hs1.window.soOobinline,
      hs1.window.rcvNxt.imp hnxt.trans id⟩
    constructor
    · rw [hseq]
      exact hbegins
    · rw [hseq, hlen']
      exact hs1.ends
    · rw [hseq, hlen']
      exact inside_of_ends hlen1 hs1.ends
    · rw [hseq, hlen', hkeep]
      exact hk
    · rw [hseq, hlen', ← hbytes]
      rcases hchain with hall | ⟨hurg, hoff, hpos, hle, hpulled⟩
      · exact .inl hall
      obtain ⟨hwas, hsum⟩ := hs1.holds.urg hurg
      refine .inr ⟨hwas, hs1.window.soOobinline ▸ hoff, s1.ti.urp.toNat - 1, by omega, ?_,
        hpulled⟩
      rw [Nat.sub_add_cancel hpos, BitVec.ofNat_toNat]
      exact hsum
    · intro hset
      obtain ⟨hwas, hend⟩ := hs1.holds.fin (hfin ▸ hset)
      refine ⟨hwas, ?_⟩
      rw [hseq, hlen', signExtend_short hlen1, signExtend_short (tcpLen_lt hlen), hfirst, ← hdata,
        ← hend, BitVec.ofNat_add, BitVec.add_assoc]

/-- A connection with a window of 4096 bytes. -/
def windowed : Conn :=
  ⟨{ tcpNewtcpcb with tState := .established, rcvNxt := 1000, rcvUp := 1000, rcvAdv := 5096 },
    ⟨[], [], 4096, false, false, false, false, 0, 0⟩⟩

/-- Two bytes, of which the first is urgent. -/
def urgentByte : Tcpiphdr := ⟨1000, 0, 2, ⟨false, false, false, true, true, true⟩, 0, 1, [7, 8]⟩

/-- A machine without `TCP_COMPAT_42`. -/
def plainEnv : Env := ⟨false, 1200, []⟩

/-- At `TCP_REASS`, the second byte alone is in the chain. -/
def urgentTaken : Input where
  conn :=
    ⟨{ windowed.tp with rcvWnd := 4096, rcvUp := 1001, sndWl1 := 1000, oobHavedata := true, tIobc := 7 },
      { windowed.so with ssRcvatmark := true }⟩
  ti := { urgentByte with data := [8] }
  tiflags := urgentByte.flags

/-- The run for that segment. Source: tcp_input. -/
theorem atReass_urgentByte : atReass plainEnv 4096 windowed urgentByte = some urgentTaken := by
  rfl

/-- The two bytes of a segment, one of them urgent. Source: tcp_input. Kind: C -/
theorem atReass_trimmed_urgentByte :
    Trimmed urgentByte 1000 (setRcvWnd windowed 4096).tp.rcvWnd false urgentTaken ∧
      SameWindow (setRcvWnd windowed 4096) urgentTaken.conn :=
  @atReass_trimmed plainEnv 4096 windowed urgentByte urgentTaken 22#16 5#4 (by decide) (by decide)
    atReass_urgentByte

/-- That byte is missing from the chain. Source: tcp_pulloutofband. Kind: C -/
theorem not_forall_trimmed :
    ¬ ∀ (env : Env) (space : ℤ) (c : Conn) (ti : Tcpiphdr) (ipLen : BitVec 16) (tiOff : BitVec 4)
      (s : Input),
      TcpState.synReceived.num ≤ c.tp.tState.num → tcpLen ipLen tiOff = some ti.len →
      ti.data.length = ti.len.toNat → atReass env space c ti = some s →
      seqLeq s.conn.tp.rcvNxt s.ti.seq = true ∧
        seqLeq (s.ti.seq + s.ti.len.signExtend 32)
          (s.conn.tp.rcvNxt + s.conn.tp.rcvWnd.setWidth 32) = true ∧
        s.ti.data = bytesFrom ti s.ti.seq s.ti.len.toNat ∧
        (s.tiflags.fin = true →
          s.ti.seq + s.ti.len.signExtend 32 = firstByte ti + ti.len.signExtend 32) := by
  intro h
  obtain ⟨-, -, hdata, -⟩ := h plainEnv 4096 windowed urgentByte 22#16 5#4 urgentTaken (by decide)
    (by decide) (by decide) atReass_urgentByte
  exact absurd hdata (by decide)

end Bsd386.Net.Tcp
