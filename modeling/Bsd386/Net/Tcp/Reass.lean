import Bsd386.Lib.Reassembly
import Bsd386.Net.Tcp.Basic

/-!
# TCP reassembly

`tcp_reass` and its macro form, and when both are alike (`macro_iff`). `ti_len` is a short and is converted to `int` or to `u_long` where
it meets a difference or a sequence number.
-/

namespace Bsd386.Net.Tcp

open Lib

/-- How `tcp_reass` computes with segments: `SEQ_GT(q->ti_seq, ti->ti_seq)`,
`(int)(q->ti_seq + q->ti_len - ti->ti_seq)`, `ti->ti_len`, and `m_adj(m, i)` with the fields
adjusted.
Source: tcp_reass -/
def ops : Reassembly.Ops Tcpiphdr where
  after q ti := seqGt q.seq ti.seq
  beyond q ti := (q.seq + q.len.signExtend 32 - ti.seq).toInt
  size ti := ti.len.toInt
  trim ti i := { ti with
    seq := ti.seq + BitVec.ofInt 32 i
    len := ti.len - BitVec.ofInt 16 i
    data := ti.data.drop i.toNat }

/-- Source: sbappend -/
def sbappendRcv (so : Socket) (m : List UInt8) : Socket := { so with soRcv := so.soRcv ++ m }

/-- Present data to user, advancing `rcv_nxt` through completed sequence space: the `do` loop, whose
condition holds on entry. `flags` is `TH_FIN` of the last segment presented.
Source: tcp_reass -/
def presentLoop (tp : Tcpcb) (so : Socket) (flags : Bool) : List Tcpiphdr → Conn × Bool
  | [] => (⟨{ tp with segs := [] }, so⟩, flags)
  | ti :: qs =>
    if ti.seq = tp.rcvNxt then
      presentLoop { tp with rcvNxt := tp.rcvNxt + ti.len.signExtend 32 }
        (if so.ssCantrcvmore then so else sbappendRcv so ti.data) ti.flags.fin qs
    else (⟨{ tp with segs := ti :: qs }, so⟩, flags)

/-- What `tcp_reass` does from `present` on. Source: tcp_reass -/
def present (c : Conn) : Conn × Bool :=
  if c.tp.tState.haveRcvdSyn = false then (c, false)
  else
    match c.tp.segs with
    | [] => (c, false)
    | ti :: _ =>
      if ti.seq ≠ c.tp.rcvNxt then (c, false)
      else if c.tp.tState = .synReceived ∧ ti.len ≠ 0 then (c, false)
      else presentLoop c.tp c.so false c.tp.segs

/-- Insert segment `ti` into reassembly queue of tcp with control block `tp`. Returns `TH_FIN` if
reassembly now includes a segment with FIN. Called without segment after becoming established to
force pre-ESTABLISHED data up to user socket.
Source: tcp_reass -/
def tcpReass (c : Conn) (ti : Option Tcpiphdr) : Conn × Bool :=
  match ti with
  | none => present c
  | some ti =>
    match Reassembly.insert ops ti c.tp.segs with
    | none => (c, false)
    | some segs => present { c with tp := { c.tp with segs := segs } }

/-- The macro form, which does the common case inline: segment is the next to be received on an
established connection, and the queue is empty.
Source: TCP_REASS -/
def tcpReassMacro (c : Conn) (ti : Tcpiphdr) : Conn × Bool :=
  if ti.seq = c.tp.rcvNxt ∧ c.tp.segs = [] ∧ c.tp.tState = .established then
    (⟨{ c.tp with tfDelack := true, rcvNxt := c.tp.rcvNxt + ti.len.signExtend 32 },
      sbappendRcv c.so ti.data⟩, ti.flags.fin)
  else
    let r := tcpReass c (some ti)
    ({ r.1 with tp := { r.1.tp with tfAcknow := true } }, r.2)

/-! ## The common case -/

variable {c : Conn} {ti : Tcpiphdr}

theorem tcpReass_next (hstate : c.tp.tState = .established) (hseq : ti.seq = c.tp.rcvNxt) (hsegs : c.tp.segs = []) :
    tcpReass c (some ti) =
      (⟨{ c.tp with rcvNxt := c.tp.rcvNxt + ti.len.signExtend 32 },
        if c.so.ssCantrcvmore then c.so else sbappendRcv c.so ti.data⟩, ti.flags.fin) := by
  have hinsert : Reassembly.insert ops ti c.tp.segs = some [ti] := by
    rw [hsegs]
    rfl
  have hsyn : c.tp.tState.haveRcvdSyn = true := by
    rw [hstate]
    rfl
  have hne : ¬ (c.tp.tState = .synReceived ∧ ti.len ≠ 0) := by
    rw [hstate]
    exact fun h => absurd h.1 nofun
  simp only [tcpReass, hinsert, present, hsyn, hseq, ne_eq, not_true_eq_false, if_false, hne, presentLoop,
    if_true, Bool.true_eq_false]
  rw [← hsegs]

/-- **The macro form** gives what `tcp_reass` gives exactly when the process may still receive, or the segment
has no data. Kind: P. -/
theorem macro_iff (hstate : c.tp.tState = .established) (hseq : ti.seq = c.tp.rcvNxt) (hsegs : c.tp.segs = []) :
    ((tcpReassMacro c ti).1.tp.rcvNxt = (tcpReass c (some ti)).1.tp.rcvNxt ∧
      (tcpReassMacro c ti).1.so.soRcv = (tcpReass c (some ti)).1.so.soRcv ∧
      (tcpReassMacro c ti).1.tp.segs = [] ∧ (tcpReass c (some ti)).1.tp.segs = [] ∧
      (tcpReassMacro c ti).2 = (tcpReass c (some ti)).2) ↔
    c.so.ssCantrcvmore = false ∨ ti.data = [] := by
  rw [tcpReass_next hstate hseq hsegs, tcpReassMacro, if_pos ⟨hseq, hsegs, hstate⟩]
  dsimp only [sbappendRcv]
  cases hcant : c.so.ssCantrcvmore with
  | false => exact iff_of_true ⟨rfl, rfl, hsegs, hsegs, rfl⟩ (.inl rfl)
  | true =>
    constructor
    · rintro ⟨-, hrcv, -⟩
      exact .inr (List.append_right_eq_self.mp hrcv)
    · rintro (hfalse | hdata)
      · exact absurd hfalse nofun
      · refine ⟨rfl, ?_, hsegs, hsegs, rfl⟩
        rw [hdata, List.append_nil]
        rfl

def receiving (cantrcvmore : Bool) : Conn :=
  ⟨{ tcpNewtcpcb with tState := .established, rcvNxt := 1000 },
    ⟨[], [], 4096, cantrcvmore, false, false, false, 0, 0⟩⟩

/-- Its next segment, with one byte. -/
def oneByte : Tcpiphdr := ⟨1000, 0, 1, ⟨false, false, false, true, true, false⟩, 0, 0, [7]⟩

/-- A byte for a process that receives. Source: TCP_REASS. Kind: C -/
theorem macro_receiving :
    (tcpReassMacro (receiving false) oneByte).1.tp.rcvNxt =
        (tcpReass (receiving false) (some oneByte)).1.tp.rcvNxt ∧
      (tcpReassMacro (receiving false) oneByte).1.so.soRcv =
        (tcpReass (receiving false) (some oneByte)).1.so.soRcv ∧
      (tcpReassMacro (receiving false) oneByte).1.tp.segs = [] ∧
      (tcpReass (receiving false) (some oneByte)).1.tp.segs = [] ∧
      (tcpReassMacro (receiving false) oneByte).2 = (tcpReass (receiving false) (some oneByte)).2 :=
  (macro_iff rfl rfl rfl).mpr (.inl rfl)

/-- A byte after `shutdown`. Source: TCP_REASS. Kind: C -/
theorem not_macro_cantrcvmore :
    ¬ ∀ (c : Conn) (ti : Tcpiphdr), c.tp.tState = .established → ti.seq = c.tp.rcvNxt → c.tp.segs = [] →
      (tcpReassMacro c ti).1.tp.rcvNxt = (tcpReass c (some ti)).1.tp.rcvNxt ∧
        (tcpReassMacro c ti).1.so.soRcv = (tcpReass c (some ti)).1.so.soRcv ∧
        (tcpReassMacro c ti).1.tp.segs = [] ∧ (tcpReass c (some ti)).1.tp.segs = [] ∧
        (tcpReassMacro c ti).2 = (tcpReass c (some ti)).2 := by
  intro h
  obtain ⟨-, hrcv, -⟩ := h (receiving true) oneByte rfl rfl rfl
  exact absurd hrcv (by decide)

end Bsd386.Net.Tcp
