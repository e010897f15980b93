import Bsd386.Net.Tcp.Reass
import Mathlib.Data.BitVec
import Mathlib.Tactic.Ring

/-!
# Stream integrity

Segments that carry slices of a stream `S` are given to `tcp_reass` in any order. The position in
`S` of the sequence number `rcv_nxt` is the number of bytes appended to `so_rcv`, and a segment in
the queue has the position that its distance from `rcv_nxt` gives it (`startAt`), so that sequence
numbers may wrap around any number of times.
-/

namespace Bsd386.Net.Tcp

open List Lib
open BitVec (ofInt ofNat ofNat_add toNat_ofNat toNat_sub)

variable {e ti : Tcpiphdr} {P : ℕ → Prop} {c : Conn} {qs : List Tcpiphdr}

/-! ## Positions -/

theorem toInt_sub_of_lt {x y : BitVec 32} (hx : x.toNat < 2 ^ 31) (hy : y.toNat < 2 ^ 31) :
    (x - y).toInt = (x.toNat : ℤ) - y.toNat := by
  rw [BitVec.toInt_eq_toNat_cond, toNat_sub]
  split <;> omega

/-- The position in the stream of a segment that begins less than 2^32 after position `n`; position 0
has the sequence number `s₀`. -/
def startAt (s₀ : BitVec 32) (n : ℕ) (e : Tcpiphdr) : ℕ :=
  n + (e.seq - (s₀ + BitVec.ofNat 32 n)).toNat

def segLen (e : Tcpiphdr) : ℕ := e.len.toNat

/-- A segment in the queue is a slice of `S`, within a window of less than 2^31 from position `n` on. -/
structure Piece (S : List UInt8) (s₀ : BitVec 32) (n : ℕ) (e : Tcpiphdr) : Prop where
  len_le : segLen e ≤ 32767
  window : startAt s₀ n e + segLen e < n + 2 ^ 31
  stop_le : startAt s₀ n e + segLen e ≤ S.length
  data_eq : e.data = (S.drop (startAt s₀ n e)).take (segLen e)

section

variable {S : List UInt8} {s₀ : BitVec 32} {n : ℕ}

theorem Piece.toNat_stop (he : Piece S s₀ n e) :
    (e.seq + e.len.signExtend 32 - (s₀ + BitVec.ofNat 32 n)).toNat =
      (e.seq - (s₀ + BitVec.ofNat 32 n)).toNat + segLen e := by
  have hlen := he.len_le
  have hwin := he.window
  unfold startAt segLen at *
  have hext : (e.len.signExtend 32).toNat = e.len.toNat := by
    rw [BitVec.signExtend_eq_setWidth_of_msb_false
      (BitVec.msb_eq_false_iff_two_mul_lt.mpr (by omega)), BitVec.toNat_setWidth]
    omega
  rw [show e.seq + e.len.signExtend 32 - (s₀ + ofNat 32 n) =
    e.seq - (s₀ + ofNat 32 n) + e.len.signExtend 32 from by ring, BitVec.toNat_add, hext]
  omega

theorem Piece.toInt_len (he : Piece S s₀ n e) : e.len.toInt = segLen e := by
  have hlen := he.len_le
  unfold segLen at *
  rw [BitVec.toInt_eq_toNat_cond]
  split <;> omega

theorem Piece.trim (he : Piece S s₀ n e) {i : ℕ} (hi : i < segLen e) :
    Piece S s₀ n (ops.trim e i) ∧ startAt s₀ n (ops.trim e i) = startAt s₀ n e + i ∧
      segLen (ops.trim e i) = segLen e - i := by
  have hlen := he.len_le
  have hwin := he.window
  have hstop := he.stop_le
  have hstart : startAt s₀ n (ops.trim e i) = startAt s₀ n e + i := by
    unfold startAt segLen at *
    have hseq : (ops.trim e i).seq - (s₀ + ofNat 32 n) =
        e.seq - (s₀ + ofNat 32 n) + ofNat 32 i := by
      show e.seq + ofInt 32 i - (s₀ + ofNat 32 n) = _
      rw [BitVec.ofInt_natCast]
      ring
    rw [hseq, BitVec.toNat_add, toNat_ofNat]
    omega
  have hsize : segLen (ops.trim e i) = segLen e - i := by
    unfold segLen at *
    show (e.len - ofInt 16 i).toNat = _
    rw [BitVec.ofInt_natCast, toNat_sub, toNat_ofNat]
    omega
  refine ⟨⟨?_, ?_, ?_, ?_⟩, hstart, hsize⟩
  · omega
  · omega
  · omega
  · show e.data.drop i = _
    rw [hstart, hsize, he.data_eq, drop_take, drop_drop]

theorem faithful_ops : Reassembly.Faithful ops (Piece S s₀ n) (startAt s₀ n) segLen := by
  have hsub : ∀ a b r : BitVec 32, a - b = (a - r) - (b - r) := fun a b r => by ring
  refine ⟨fun p q hp hq => ?_, fun p q hp hq => ?_, fun p hp => hp.toInt_len,
    fun p i hp _ hi => hp.trim hi⟩
  · have hwp := hp.window
    have hwq := hq.window
    have h : ops.after q p = true ↔ 0 < (q.seq - p.seq).toInt := decide_eq_true_iff
    unfold startAt at *
    rw [h, hsub q.seq p.seq (s₀ + ofNat 32 n), toInt_sub_of_lt (by omega) (by omega)]
    omega
  · have hwp := hp.window
    have hwq := hq.window
    have hstop := hp.toNat_stop
    have h : ops.beyond p q = (p.seq + p.len.signExtend 32 - q.seq).toInt := rfl
    unfold startAt at *
    rw [h, hsub _ q.seq (s₀ + ofNat 32 n), toInt_sub_of_lt (by omega) (by omega), hstop]
    omega

theorem startAt_advance {k : ℕ} (h : n + k ≤ startAt s₀ n e) :
    startAt s₀ (n + k) e = startAt s₀ n e := by
  unfold startAt at *
  have hseq : e.seq - (s₀ + ofNat 32 (n + k)) =
      e.seq - (s₀ + ofNat 32 n) - ofNat 32 k := by
    rw [ofNat_add]
    ring
  rw [hseq, toNat_sub, toNat_ofNat]
  omega

theorem startAt_eq_iff :
    startAt s₀ n e = n ↔ e.seq = s₀ + BitVec.ofNat 32 n := by
  unfold startAt
  constructor
  · intro h
    have hzero : e.seq - (s₀ + ofNat 32 n) = 0#32 := BitVec.eq_of_toNat_eq (by
      rw [toNat_ofNat]
      omega)
    exact sub_eq_zero.mp hzero
  · intro h
    rw [h, sub_self]
    rfl

theorem Piece.advance (he : Piece S s₀ n e) {k : ℕ} (h : n + k ≤ startAt s₀ n e) :
    Piece S s₀ (n + k) e := by
  have hstart := startAt_advance h
  refine ⟨he.len_le, ?_, ?_, ?_⟩
  · have hwin := he.window
    omega
  · rw [hstart]
    exact he.stop_le
  · rw [hstart]
    exact he.data_eq

/-! ## Presenting data -/

/-- What the connection holds when the bytes before position `n` are in `so_rcv`: pieces of `S`, in
order, that cover from there on what is known to have been received (`P`). -/
structure Buffered (S : List UInt8) (s₀ : BitVec 32) (n : ℕ) (P : ℕ → Prop) (c : Conn) : Prop where
  canrcv : c.so.ssCantrcvmore = false
  nxt : c.tp.rcvNxt = s₀ + BitVec.ofNat 32 n
  rcv : c.so.soRcv = S.take n
  le : n ≤ S.length
  pieces : ∀ e ∈ c.tp.segs, Piece S s₀ n e
  sorted : Reassembly.Sorted (startAt s₀ n) segLen c.tp.segs
  covered : ∀ x, n ≤ x → (Reassembly.Covered (startAt s₀ n) segLen c.tp.segs x ↔ P x)

/-- Nothing that is left begins at position `n`. -/
def Presented (s₀ : BitVec 32) (n : ℕ) (c : Conn) : Prop :=
  ∀ e ∈ c.tp.segs, n < startAt s₀ n e

theorem presented_of_head (hc : Buffered S s₀ n P c)
    (hsegs : c.tp.segs = ti :: qs) (hne : ti.seq ≠ c.tp.rcvNxt) :
    Presented s₀ n c := by
  have hti : n < startAt s₀ n ti := by
    have hne' : startAt s₀ n ti ≠ n := fun h => hne ((startAt_eq_iff.mp h).trans hc.nxt.symm)
    have hle : n ≤ startAt s₀ n ti := Nat.le_add_right _ _
    omega
  have hsort := hc.sorted
  rw [hsegs] at hsort
  intro e he
  rw [hsegs] at he
  rcases mem_cons.mp he with rfl | he
  · exact hti
  · have hle := (pairwise_cons.mp hsort).1 e he
    omega

theorem Buffered.turn {tp : Tcpcb} {so : Socket}
    (hc : Buffered S s₀ n P ⟨{ tp with segs := ti :: qs }, so⟩) (hseq : ti.seq = tp.rcvNxt) :
    Buffered S s₀ (n + segLen ti) P
      ⟨{ tp with rcvNxt := tp.rcvNxt + ti.len.signExtend 32, segs := qs },
        sbappendRcv so ti.data⟩ := by
  have hti := hc.pieces ti mem_cons_self
  have hnxt : tp.rcvNxt = s₀ + ofNat 32 n := hc.nxt
  have hrcv : so.soRcv = S.take n := hc.rcv
  have hstart : startAt s₀ n ti = n := startAt_eq_iff.mpr (hseq.trans hnxt)
  have hlen := hti.len_le
  have hstop := hti.stop_le
  obtain ⟨hhead, htail⟩ := pairwise_cons.mp hc.sorted
  have hafter : ∀ e ∈ qs, n + segLen ti ≤ startAt s₀ n e := fun e he => by
    have hle := hhead e he
    omega
  have hsame : ∀ e ∈ qs, startAt s₀ (n + segLen ti) e = startAt s₀ n e := fun e he =>
    startAt_advance (hafter e he)
  refine ⟨hc.canrcv, ?_, ?_, ?_, fun e he => ?_, ?_, fun x hx => ?_⟩
  · show tp.rcvNxt + ti.len.signExtend 32 = s₀ + ofNat 32 (n + segLen ti)
    have hext : ti.len.signExtend 32 = ofNat 32 (segLen ti) := by
      apply BitVec.eq_of_toNat_eq
      unfold segLen at *
      rw [BitVec.signExtend_eq_setWidth_of_msb_false
        (BitVec.msb_eq_false_iff_two_mul_lt.mpr (by omega)), BitVec.toNat_setWidth,
        toNat_ofNat]
    rw [hnxt, hext, ofNat_add, add_assoc]
  · show so.soRcv ++ ti.data = S.take (n + segLen ti)
    rw [hrcv, hti.data_eq, hstart, take_add]
  · omega
  · exact (hc.pieces e (mem_cons_of_mem ti he)).advance (hafter e he)
  · refine htail.imp_of_mem fun he he' hle => ?_
    rw [hsame _ he, hsame _ he']
    exact hle
  · rw [← hc.covered x (by omega)]
    constructor
    · rintro ⟨e, he, hxe⟩
      rw [hsame e he] at hxe
      exact ⟨e, mem_cons_of_mem ti he, hxe⟩
    · rintro ⟨e, he, hxe⟩
      rcases mem_cons.mp he with rfl | he
      · omega
      · rw [← hsame e he] at hxe
        exact ⟨e, he, hxe⟩

theorem presentLoop_spec {tp : Tcpcb} {so : Socket} (flags : Bool)
    (hc : Buffered S s₀ n P ⟨{ tp with segs := qs }, so⟩) :
    ∃ n', n ≤ n' ∧ Buffered S s₀ n' P (presentLoop tp so flags qs).1 ∧
      Presented s₀ n' (presentLoop tp so flags qs).1 ∧
      (presentLoop tp so flags qs).1.tp.tState = tp.tState := by
  induction qs generalizing tp so flags n with
  | nil => exact ⟨n, le_rfl, hc, fun e he => absurd he not_mem_nil, rfl⟩
  | cons ti qs ih =>
    have hcan : so.ssCantrcvmore = false := hc.canrcv
    rw [presentLoop]
    split
    · next hseq =>
        rw [hcan, if_neg (by simp)]
        obtain ⟨tp', htp⟩ : ∃ tp', { tp with rcvNxt := tp.rcvNxt + ti.len.signExtend 32 } = tp' :=
          ⟨_, rfl⟩
        have hturn : Buffered S s₀ (n + segLen ti) P
            ⟨{ tp' with segs := qs }, sbappendRcv so ti.data⟩ := by
          rw [← htp]
          exact hc.turn hseq
        obtain ⟨n', hle, hbuf, hpres, hstate⟩ := ih ti.flags.fin hturn
        rw [htp]
        refine ⟨n', by omega, hbuf, hpres, hstate.trans ?_⟩
        rw [← htp]
    · next hne => exact ⟨n, le_rfl, hc, presented_of_head hc rfl hne, rfl⟩

/-- The states in which data is presented as it comes.
Source: tcp_reass -/
def TcpState.receives (s : TcpState) : Prop := s.haveRcvdSyn = true ∧ s ≠ .synReceived

theorem present_spec (hc : Buffered S s₀ n P c)
    (hstate : c.tp.tState.receives) :
    ∃ n', n ≤ n' ∧ Buffered S s₀ n' P (present c).1 ∧ Presented s₀ n' (present c).1 ∧
      (present c).1.tp.tState = c.tp.tState := by
  rw [present, if_neg (by simp [hstate.1])]
  cases hsegs : c.tp.segs with
  | nil =>
    refine ⟨n, le_rfl, hc, fun e he => ?_, rfl⟩
    rw [hsegs] at he
    exact absurd he not_mem_nil
  | cons ti qs =>
    dsimp only
    split
    · next hne => exact ⟨n, le_rfl, hc, presented_of_head hc hsegs hne, rfl⟩
    rw [if_neg fun h => hstate.2 h.1]
    apply presentLoop_spec
    rw [← hsegs]
    exact hc

/-! ## One segment -/

/-- A segment that carries the slice of `S` at a position: its sequence number is that of the
position, its data are the bytes there, and `ti_len` is their number. -/
structure Carries (S : List UInt8) (s₀ : BitVec 32) (pos : ℕ) (ti : Tcpiphdr) : Prop where
  seq_eq : ti.seq = s₀ + BitVec.ofNat 32 pos
  len_eq : ti.len.toInt = ti.data.length
  stop_le : pos + ti.data.length ≤ S.length
  data_eq : ti.data = (S.drop pos).take ti.data.length

theorem Carries.piece {pos : ℕ} (h : Carries S s₀ pos ti) (hle : n ≤ pos)
    (hwin : pos + ti.data.length < n + 2 ^ 31) :
    Piece S s₀ n ti ∧ startAt s₀ n ti = pos ∧ segLen ti = ti.data.length := by
  have hlen : segLen ti = ti.data.length ∧ segLen ti ≤ 32767 := by
    have h1 := h.len_eq
    rw [BitVec.toInt_eq_toNat_cond] at h1
    unfold segLen
    split at h1 <;> omega
  have hstart : startAt s₀ n ti = pos := by
    unfold startAt
    obtain ⟨k, rfl⟩ := Nat.exists_eq_add_of_le hle
    rw [h.seq_eq, ofNat_add, show s₀ + (ofNat 32 n + ofNat 32 k) -
      (s₀ + ofNat 32 n) = ofNat 32 k from by ring, toNat_ofNat]
    omega
  refine ⟨⟨hlen.2, by omega, ?_, ?_⟩, hstart, hlen.1⟩
  · rw [hstart, hlen.1]
    exact h.stop_le
  · rw [hstart, hlen.1]
    exact h.data_eq

/-- **One segment for `tcp_reass`**: the connection goes on holding what has been received, and
nothing that is left begins at the new position. -/
theorem tcpReass_spec (hc : Buffered S s₀ n P c)
    (hpres : Presented s₀ n c) (hstate : c.tp.tState.receives) {pos : ℕ}
    (hti : Carries S s₀ pos ti) (hle : n ≤ pos) (hwin : pos + ti.data.length < n + 2 ^ 31) :
    ∃ n', n ≤ n' ∧
      Buffered S s₀ n' (fun x => P x ∨ (pos ≤ x ∧ x < pos + ti.data.length))
        (tcpReass c (some ti)).1 ∧
      Presented s₀ n' (tcpReass c (some ti)).1 ∧
      (tcpReass c (some ti)).1.tp.tState = c.tp.tState := by
  obtain ⟨hpiece, hstart, hlen⟩ := hti.piece hle hwin
  have hspec := faithful_ops.insert_spec hpiece hc.pieces hc.sorted
  rw [hstart, hlen] at hspec
  rw [tcpReass]
  cases hins : Reassembly.insert ops ti c.tp.segs with
  | none =>
    rw [hins] at hspec
    refine ⟨n, le_rfl, ⟨hc.canrcv, hc.nxt, hc.rcv, hc.le, hc.pieces, hc.sorted, fun x hx => ?_⟩,
      hpres, rfl⟩
    rw [hc.covered x hx]
    exact ⟨.inl, fun h => h.elim id fun hx' => (hc.covered x hx).mp (hspec x hx'.1 hx'.2)⟩
  | some segs =>
    rw [hins] at hspec
    obtain ⟨hpieces, hsorted, hcovered⟩ := hspec
    have hbuf : Buffered S s₀ n (fun x => P x ∨ (pos ≤ x ∧ x < pos + ti.data.length))
        { c with tp := { c.tp with segs := segs } } := by
      refine ⟨hc.canrcv, hc.nxt, hc.rcv, hc.le, hpieces, hsorted, fun x hx => ?_⟩
      rw [hcovered x, hc.covered x hx]
    exact present_spec hbuf hstate

theorem present_single (hsegs : c.tp.segs = [ti])
    (hseq : ti.seq = c.tp.rcvNxt) (hstate : c.tp.tState = .established)
    (hcan : c.so.ssCantrcvmore = false) :
    present c = (⟨{ c.tp with rcvNxt := c.tp.rcvNxt + ti.len.signExtend 32, segs := [] },
      sbappendRcv c.so ti.data⟩, ti.flags.fin) := by
  rw [present, if_neg (by rw [hstate]; decide), hsegs]
  dsimp only
  rw [if_neg (not_not.mpr hseq), if_neg (by simp [hstate]), presentLoop, if_pos hseq, hcan,
    if_neg (by simp), presentLoop]

theorem tcpReassMacro_eq (hcan : c.so.ssCantrcvmore = false) (ti : Tcpiphdr) :
    ∃ delack acknow, (tcpReassMacro c ti).1 =
      { (tcpReass c (some ti)).1 with
        tp := { (tcpReass c (some ti)).1.tp with tfDelack := delack, tfAcknow := acknow } } := by
  rw [tcpReassMacro]
  split
  · next h =>
      obtain ⟨hseq, hsegs, hstate⟩ := h
      have hins : Reassembly.insert ops ti c.tp.segs = some [ti] := by
        rw [hsegs]
        rfl
      have hfun : tcpReass c (some ti) =
          (⟨{ c.tp with rcvNxt := c.tp.rcvNxt + ti.len.signExtend 32, segs := [] },
            sbappendRcv c.so ti.data⟩, ti.flags.fin) := by
        rw [tcpReass, hins]
        exact present_single rfl hseq hstate hcan
      refine ⟨true, c.tp.tfAcknow, ?_⟩
      rw [hfun]
      simp only [hsegs]
  · exact ⟨_, _, rfl⟩

/-! ## All segments -/

/-- A segment that arrives: where in the stream it belongs, and whether it goes through the macro
form. -/
structure Arrival where
  pos : ℕ
  ti : Tcpiphdr
  inline : Bool

/-- A segment is given to `tcp_reass`. Source: tcp_reass -/
def deliver (c : Conn) (a : Arrival) : Conn :=
  if a.inline then (tcpReassMacro c a.ti).1 else (tcpReass c (some a.ti)).1

/-- Segments are given to `tcp_reass` one after the other.
Source: tcp_reass -/
def deliverAll (c : Conn) (as : List Arrival) : Conn := as.foldl deliver c

/-- The received segments have the byte at position `x`. -/
def Received (as : List Arrival) (x : ℕ) : Prop :=
  ∃ a ∈ as, a.pos ≤ x ∧ x < a.pos + a.ti.data.length

theorem deliver_spec (hc : Buffered S s₀ n P c)
    (hpres : Presented s₀ n c) (hstate : c.tp.tState.receives) {a : Arrival}
    (ha : Carries S s₀ a.pos a.ti) (hle : n ≤ a.pos)
    (hwin : a.pos + a.ti.data.length < n + 2 ^ 31) :
    ∃ n', n ≤ n' ∧
      Buffered S s₀ n' (fun x => P x ∨ (a.pos ≤ x ∧ x < a.pos + a.ti.data.length)) (deliver c a) ∧
      Presented s₀ n' (deliver c a) ∧ (deliver c a).tp.tState = c.tp.tState := by
  obtain ⟨n', hn, hbuf, hpres', hstate'⟩ := tcpReass_spec hc hpres hstate ha hle hwin
  refine ⟨n', hn, ?_⟩
  rw [deliver]
  split
  · obtain ⟨delack, acknow, heq⟩ := tcpReassMacro_eq hc.canrcv a.ti
    rw [heq]
    exact ⟨⟨hbuf.canrcv, hbuf.nxt, hbuf.rcv, hbuf.le, hbuf.pieces, hbuf.sorted, hbuf.covered⟩,
      hpres', hstate'⟩
  · exact ⟨hbuf, hpres', hstate'⟩

theorem Buffered.length_rcv (hc : Buffered S s₀ n P c) :
    c.so.soRcv.length = n := by
  rw [hc.rcv, length_take]
  exact min_eq_left hc.le

end

/-- A connection at the beginning of the stream: able to receive, with nothing received. -/
structure Start (s₀ : BitVec 32) (c : Conn) : Prop where
  canrcv : c.so.ssCantrcvmore = false
  receives : c.tp.tState.receives
  nxt : c.tp.rcvNxt = s₀
  rcv : c.so.soRcv = []
  segs : c.tp.segs = []

/-- Every segment, when it arrives, lies within a window of less than 2^31 from `rcv_nxt` on. -/
def InWindow (W : ℕ) (c : Conn) (as : List Arrival) : Prop :=
  ∀ pre a post, as = pre ++ a :: post →
    (deliverAll c pre).so.soRcv.length ≤ a.pos ∧
      a.pos + a.ti.data.length ≤ (deliverAll c pre).so.soRcv.length + W

theorem buffered_deliverAll {S : List UInt8} {s₀ : BitVec 32} {W : ℕ} (hW : W < 2 ^ 31)
    (hc : Start s₀ c) {as : List Arrival} (has : ∀ a ∈ as, Carries S s₀ a.pos a.ti)
    (hwin : InWindow W c as) :
    ∃ n, Buffered S s₀ n (Received as) (deliverAll c as) ∧ Presented s₀ n (deliverAll c as) ∧
      (deliverAll c as).tp.tState.receives := by
  induction as using reverseRecOn with
  | nil =>
    have hsegs : (deliverAll c []).tp.segs = [] := hc.segs
    refine ⟨0, ⟨hc.canrcv, ?_, ?_, Nat.zero_le _, ?_, ?_, fun x _ => ?_⟩, ?_, hc.receives⟩
    · rw [BitVec.add_zero]
      exact hc.nxt
    · exact hc.rcv
    · rw [hsegs]
      exact fun e he => absurd he not_mem_nil
    · rw [hsegs]
      exact List.Pairwise.nil
    · rw [hsegs]
      exact ⟨fun ⟨e, he, _⟩ => absurd he not_mem_nil,
        fun ⟨a, ha, _⟩ => absurd ha not_mem_nil⟩
    · rw [Presented, hsegs]
      exact fun e he => absurd he not_mem_nil
  | append_singleton as a ih =>
    obtain ⟨n, hbuf, hpres, hstate⟩ := ih (fun b hb => has b (mem_append_left _ hb))
      fun pre b post heq => hwin pre b (post ++ [a]) (by rw [heq, append_assoc]; rfl)
    obtain ⟨hle, hstop⟩ := hwin as a [] rfl
    rw [hbuf.length_rcv] at hle hstop
    obtain ⟨n', -, hbuf', hpres', hstate'⟩ := deliver_spec hbuf hpres hstate
      (has a (mem_append_right _ (mem_singleton.mpr rfl))) hle (by omega)
    have hone : deliverAll c (as ++ [a]) = deliver (deliverAll c as) a := by
      simp only [deliverAll, foldl_append, foldl_cons, foldl_nil]
    rw [hone]
    refine ⟨n', ⟨hbuf'.canrcv, hbuf'.nxt, hbuf'.rcv, hbuf'.le, hbuf'.pieces, hbuf'.sorted,
      fun x hx => (hbuf'.covered x hx).trans ?_⟩, hpres', ?_⟩
    · constructor
      · rintro (⟨b, hb, hxb⟩ | hx')
        · exact ⟨b, mem_append_left _ hb, hxb⟩
        · exact ⟨a, mem_append_right _ (mem_singleton.mpr rfl), hx'⟩
      · rintro ⟨b, hb, hxb⟩
        rcases mem_append.mp hb with hb | hb
        · exact .inl ⟨b, hb, hxb⟩
        · rw [mem_singleton.mp hb] at hxb
          exact .inr hxb
    · rw [hstate']
      exact hstate

/-- **Stream integrity**: whatever the order, the duplication and the overlap of the segments, at
every moment the bytes appended to `so_rcv` are the prefix of `S` that ends at `rcv_nxt`, and this
has reached `n` when the segments received by then cover `S` up to `n`.
Source: tcp_reass. Kind: C -/
theorem stream_integrity {S : List UInt8} {s₀ : BitVec 32} {W : ℕ} (hW : W < 2 ^ 31) {c : Conn}
    (hc : Start s₀ c) {as : List Arrival} (has : ∀ a ∈ as, Carries S s₀ a.pos a.ti)
    (hwin : InWindow W c as) {pre post : List Arrival} (hpre : as = pre ++ post) :
    (deliverAll c pre).so.soRcv = S.take (deliverAll c pre).so.soRcv.length ∧
      (deliverAll c pre).tp.rcvNxt =
        s₀ + BitVec.ofNat 32 (deliverAll c pre).so.soRcv.length ∧
      ∀ n ≤ S.length, (∀ x < n, Received pre x) → n ≤ (deliverAll c pre).so.soRcv.length := by
  obtain ⟨m, hbuf, hpres, -⟩ := buffered_deliverAll hW hc
    (fun a ha => has a (hpre ▸ mem_append_left _ ha))
    fun pre' a post' heq => hwin pre' a (post' ++ post) (by rw [hpre, heq, append_assoc]; rfl)
  rw [hbuf.length_rcv]
  refine ⟨hbuf.rcv, hbuf.nxt, fun n _ hcov => ?_⟩
  by_contra hlt
  obtain ⟨e, he, hle, -⟩ := (hbuf.covered m le_rfl).mpr (hcov m (by omega))
  exact absurd hle (Nat.not_le.mpr (hpres e he))

/-- Two overlapping segments, the second one first, across the wrap of sequence numbers. -/
theorem stream_integrity_wrap :
    ∃ c as, c.tp.rcvNxt = 0xfffffffe#32 ∧
      (deliverAll c as).so.soRcv = [1, 2, 3, 4, 5, 6] ∧ 6 ≤ (deliverAll c as).so.soRcv.length := by
  let c : Conn := ⟨{ tcpNewtcpcb with tState := .established, rcvNxt := 0xfffffffe },
    ⟨[], [], 4096, false, false, false, false, 0, 0⟩⟩
  let as : List Arrival :=
    [⟨3, ⟨1, 0, 3, ⟨false, false, false, false, true, false⟩, 0, 0, [4, 5, 6]⟩, true⟩,
     ⟨0, ⟨0xfffffffe, 0, 4, ⟨false, false, false, false, true, false⟩, 0, 0, [1, 2, 3, 4]⟩, true⟩]
  have has : ∀ a ∈ as, Carries [1, 2, 3, 4, 5, 6] 0xfffffffe#32 a.pos a.ti := by
    intro a ha
    simp only [as, mem_cons, not_mem_nil, or_false] at ha
    rcases ha with rfl | rfl
    · exact ⟨by decide, by decide, by decide, by decide⟩
    · exact ⟨by decide, by decide, by decide, by decide⟩
  have hwin : InWindow 4096 c as := by
    intro pre a post heq
    rcases pre with _ | ⟨b, _ | ⟨b', pre⟩⟩
    · obtain ⟨rfl, -⟩ := cons.inj heq
      exact ⟨by decide, by decide⟩
    · obtain ⟨rfl, htail⟩ := cons.inj heq
      obtain ⟨rfl, -⟩ := cons.inj htail
      exact ⟨by decide, by decide⟩
    · have hlen := congrArg length heq
      simp [as] at hlen
  obtain ⟨h1, -, h3⟩ := stream_integrity (by decide) (c := c) ⟨rfl, ⟨by decide, by decide⟩, rfl, rfl,
    rfl⟩ has hwin (append_nil as).symm
  have hsix := h3 6 (by decide) fun x hx => by
    by_cases hx' : x < 4
    · exact ⟨_, mem_cons_of_mem _ mem_cons_self, Nat.zero_le x, by simpa using hx'⟩
    · exact ⟨_, mem_cons_self, by simp; omega, by simp; omega⟩
  refine ⟨c, as, rfl, ?_, hsix⟩
  rw [h1, take_of_length_le hsix]

end Bsd386.Net.Tcp
