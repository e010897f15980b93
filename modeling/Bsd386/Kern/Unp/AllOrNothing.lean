import Bsd386.Kern.Sockbuf.Account
import Bsd386.Kern.Unp.Send

/-!
# Rights that are sent and not received

A message that was internalized and then not queued is freed at `release`, and its references stay counted.
`pruSend_cases` lists what becomes of a request; from it follows exactly when passing rights is all or
nothing.
-/

namespace Bsd386.Kern.Unp.Send

open Kern.Sockbuf List Option

variable {k : Kern} {so : SockId} {m more : List Mbuf} {nam : Option Mbuf} {control : Mbuf}
variable {ofiles : List (Option FilePtr)} {env : Env}

/-! ## The claim -/

/-- The message is at the end of a receive buffer, with references to the files `fps`.
Source: none: what is claimed -/
def Queued (k k' : Kern) (control : Mbuf) (fps : List FilePtr) : Prop :=
  ∃ so2 r, (k'.sock so2).rcv.mb = (k.sock so2).rcv.mb ++ [r] ∧
    ∃ c ∈ r, c.addr = control.addr ∧ messageRights c = fps

/-- All or nothing: when the call fails or the message is not queued, the counts are as before; when it
succeeds, each descriptor is counted once and the message is queued.
Source: none: what is claimed -/
def AllOrNothing (k : Kern) (so : SockId) (m : List Mbuf) (nam : Option Mbuf) (control : Mbuf)
    (more : List Mbuf) (ofiles : List (Option FilePtr)) (env : Env) : Prop :=
  ∀ err k', pruSend k so m nam control more ofiles env = .ok (err, k') →
    (err ≠ none ∨ ¬ Queued k k' control (files ofiles control) → k'.refs = k.refs) ∧
      (err = none → k'.refs = k.refs.plus (files ofiles control) ∧
        Queued k k' control (files ofiles control))

/-! ## The condition -/

/-- Is there room for a datagram with control data of length `clen`?
Source: sbappendaddr -/
def AddrRoom (rcv : Sockbuf) (asa : List UInt8) (m : List Mbuf) (clen : ℕ) (mget : Option (Fin nmbuf)) : Prop :=
  (BitVec.ofNat 32 asa.length + (m.head?.bind Mbuf.pkthdr).getD 0 + BitVec.ofNat 32 clen).toInt ≤ sbspace rcv ∧
    asa.length ≤ mlen ∧ mget ≠ none

/-- Is there room for data with control data of length `clen`?
Source: sbappendcontrol -/
def ControlRoom (rcv : Sockbuf) (m : List Mbuf) (clen : ℕ) : Prop :=
  (BitVec.ofNat 32 clen + BitVec.ofNat 32 (chainLen m)).toInt ≤ sbspace rcv

/-- The requests at which the kernel stops: a datagram without packet header, and a stream socket that may
send and is not connected. -/
def Stops (k : Kern) (so : SockId) (m : List Mbuf) (nam : Option Mbuf) (env : Env) : Prop :=
  match (k.sock so).type with
  | .dgram => (∃ so2, target k so nam env = .ok so2) ∧ m.head?.any (·.pkthdr.isNone) = true
  | .stream => (k.sock so).cantSend = false ∧ (k.sock so).conn = none

/-- There is a receiver, and it has room. Source: uipc_usrreq, PRU_SEND -/
def Taken (k : Kern) (so : SockId) (m : List Mbuf) (nam : Option Mbuf) (clen : ℕ) (env : Env) : Prop :=
  match (k.sock so).type with
  | .dgram => ∃ so2, target k so nam env = .ok so2 ∧
      AddrRoom (k.sock so2).rcv ((k.sock so).addr.getD sunNoname) m clen env.mget
  | .stream => (k.sock so).cantSend = false ∧ ∃ so2, (k.sock so).conn = some so2 ∧
      ControlRoom (k.sock so2).rcv m clen

/-- **The condition**: nothing is counted, since the socket has no control block or the message is refused at
once; or the kernel stops; or the message is queued; or it carries no descriptor and the call fails.
Source: uipc_usrreq, PRU_SEND -/
def SendOk (k : Kern) (so : SockId) (m : List Mbuf) (nam : Option Mbuf) (control : Mbuf)
    (more : List Mbuf) (ofiles : List (Option FilePtr)) (env : Env) : Prop :=
  (k.sock so).attached = false ∨ ¬ Internalizes ofiles control ∨ Stops k so m nam env ∨
    Taken k so m nam (chainLen (control :: more)) env ∨
    messageRights control = [] ∧ ((k.sock so).type = .dgram ∨ (k.sock so).cantSend = true)

/-! ## Appending -/

theorem sbappendaddr_cases (rcv : Sockbuf) (asa : List UInt8) (m : List Mbuf) (c : Mbuf) (more : List Mbuf)
    (mget : Option (Fin nmbuf)) :
    (∃ p, sbappendaddr rcv asa m (c :: more) mget = .error p ∧ m.head?.any (·.pkthdr.isNone) = true) ∨
      (sbappendaddr rcv asa m (c :: more) mget = .ok (false, rcv) ∧ m.head?.any (·.pkthdr.isNone) = false ∧
        ¬ AddrRoom rcv asa m (chainLen (c :: more)) mget) ∨
      ∃ r rcv', sbappendaddr rcv asa m (c :: more) mget = .ok (true, rcv') ∧ rcv'.mb = rcv.mb ++ [r] ∧ c ∈ r ∧
        m.head?.any (·.pkthdr.isNone) = false ∧ AddrRoom rcv asa m (chainLen (c :: more)) mget := by
  unfold sbappendaddr AddrRoom
  by_cases hhdr : m.head?.any (·.pkthdr.isNone) = true
  · rw [if_pos hhdr]
    exact .inl ⟨_, rfl, hhdr⟩
  rw [if_neg hhdr]
  have hhdr' := (Bool.not_eq_true _).mp hhdr
  by_cases hspace : (BitVec.ofNat 32 asa.length + (m.head?.bind Mbuf.pkthdr).getD 0 +
      BitVec.ofNat 32 (chainLen (c :: more))).toInt > sbspace rcv
  · rw [if_pos hspace]
    exact .inr (.inl ⟨rfl, hhdr', fun h => absurd h.1 (Int.not_le.mpr hspace)⟩)
  rw [if_neg hspace]
  by_cases hlen : asa.length ≤ mlen
  · rw [dif_pos hlen]
    cases mget with
    | none => exact .inr (.inl ⟨rfl, hhdr', fun h => h.2.2 rfl⟩)
    | some a =>
      refine .inr (.inr ⟨_, _, rfl, rfl, ?_, hhdr', Int.not_lt.mp hspace, hlen, some_ne_none a⟩)
      exact mem_cons_of_mem _ (mem_append_left _ mem_cons_self)
  · rw [dif_neg hlen]
    exact .inr (.inl ⟨rfl, hhdr', fun h => hlen h.2.1⟩)

theorem sbappendcontrol_cases (rcv : Sockbuf) (m : List Mbuf) (c : Mbuf) (more : List Mbuf) :
    (sbappendcontrol rcv m (c :: more) = .ok (false, rcv) ∧ ¬ ControlRoom rcv m (chainLen (c :: more))) ∨
      ∃ r rcv', sbappendcontrol rcv m (c :: more) = .ok (true, rcv') ∧ rcv'.mb = rcv.mb ++ [r] ∧ c ∈ r ∧
        ControlRoom rcv m (chainLen (c :: more)) := by
  unfold sbappendcontrol ControlRoom
  rw [if_neg (cons_ne_nil c more)]
  by_cases hspace : (BitVec.ofNat 32 (chainLen (c :: more)) + BitVec.ofNat 32 (chainLen m)).toInt > sbspace rcv
  · rw [if_pos hspace]
    exact .inl ⟨rfl, Int.not_le.mpr hspace⟩
  · rw [if_neg hspace]
    exact .inr ⟨_, _, rfl, rfl, mem_append_left _ mem_cons_self, Int.not_lt.mp hspace⟩

/-! ## The two types -/

theorem set_keeps {α : Type} (f : Usock → α) {u : Usock} (hu : f u = f (k.sock so)) (s : SockId) :
    f ((k.set so u).sock s) = f (k.sock s) := by
  unfold Kern.set
  dsimp only
  by_cases hs : s = so
  · subst hs
    rw [Function.update_self, hu]
  · rw [Function.update_of_ne hs]

theorem set_sock_self (k : Kern) (so : SockId) (u : Usock) : (k.set so u).sock so = u :=
  Function.update_self ..

theorem unpConnect2_keeps (k : Kern) (so so2 s : SockId) :
    ((unpConnect2 k so so2).sock s).rcv = (k.sock s).rcv ∧
      ((unpConnect2 k so so2).sock s).addr = (k.sock s).addr := by
  refine ⟨?_, ?_⟩
  · refine (set_keeps Usock.rcv ?_ s).trans (set_keeps Usock.rcv ?_ s)
    · rfl
    · rfl
  · refine (set_keeps Usock.addr ?_ s).trans (set_keeps Usock.addr ?_ s)
    · rfl
    · rfl

theorem unpDisconnect_keeps (k : Kern) (so so2 s : SockId) :
    ((unpDisconnect k so so2).sock s).rcv = (k.sock s).rcv := by
  refine (set_keeps Usock.rcv ?_ s).trans (set_keeps Usock.rcv ?_ s)
  · rfl
  · rfl

/-- **A datagram**: it has no receiver, or the kernel stops, or there is no room, or it is queued. -/
theorem sendDgram_cases (k : Kern) (so : SockId) (m : List Mbuf) (nam : Option Mbuf) (c : Mbuf)
    (more : List Mbuf) (env : Env) :
    (∃ e, target k so nam env = .error e ∧ sendDgram k so m nam (c :: more) env = .ok (some e, k)) ∨
      ∃ so2, target k so nam env = .ok so2 ∧
        ((∃ p, sendDgram k so m nam (c :: more) env = .error p ∧ m.head?.any (·.pkthdr.isNone) = true) ∨
        (∃ k', sendDgram k so m nam (c :: more) env = .ok (some .enobufs, k') ∧ k'.refs = k.refs ∧
          m.head?.any (·.pkthdr.isNone) = false ∧
          ¬ AddrRoom (k.sock so2).rcv ((k.sock so).addr.getD sunNoname) m (chainLen (c :: more)) env.mget) ∨
        ∃ r k', sendDgram k so m nam (c :: more) env = .ok (none, k') ∧ k'.refs = k.refs ∧
          m.head?.any (·.pkthdr.isNone) = false ∧ (k'.sock so2).rcv.mb = (k.sock so2).rcv.mb ++ [r] ∧ c ∈ r ∧
          AddrRoom (k.sock so2).rcv ((k.sock so).addr.getD sunNoname) m (chainLen (c :: more)) env.mget) := by
  unfold sendDgram
  cases htarget : target k so nam env with
  | error e => exact .inl ⟨e, rfl, rfl⟩
  | ok so2 =>
    refine .inr ⟨so2, rfl, ?_⟩
    dsimp only
    obtain ⟨k1, hk1⟩ : ∃ k1, (if nam.isSome = true then unpConnect2 k so so2 else k) = k1 := ⟨_, rfl⟩
    have hkeep : k1.refs = k.refs ∧ (k1.sock so2).rcv = (k.sock so2).rcv ∧
        (k1.sock so).addr = (k.sock so).addr := by
      rw [← hk1]
      split_ifs
      · exact ⟨rfl, (unpConnect2_keeps k so so2 so2).1, (unpConnect2_keeps k so so2 so).2⟩
      · exact ⟨rfl, rfl, rfl⟩
    have hlast : ∀ k2 : Kern, (if nam.isSome = true then unpDisconnect k2 so so2 else k2).refs = k2.refs ∧
        ((if nam.isSome = true then unpDisconnect k2 so so2 else k2).sock so2).rcv = (k2.sock so2).rcv := by
      intro k2
      split_ifs
      · exact ⟨rfl, unpDisconnect_keeps k2 so so2 so2⟩
      · exact ⟨rfl, rfl⟩
    rw [hk1, hkeep.2.1, hkeep.2.2]
    rcases sbappendaddr_cases (k.sock so2).rcv ((k.sock so).addr.getD sunNoname) m c more env.mget with
      ⟨p, happ, hhdr⟩ | ⟨happ, hhdr, hroom⟩ | ⟨r, rcv', happ, hmb, hc, hhdr, hroom⟩
    · rw [happ]
      exact .inl ⟨_, rfl, hhdr⟩
    · rw [happ]
      exact .inr (.inl ⟨_, rfl, (hlast _).1.trans hkeep.1, hhdr, hroom⟩)
    · rw [happ]
      refine .inr (.inr ⟨r, _, rfl, (hlast _).1.trans hkeep.1, hhdr, ?_, hc, hroom⟩)
      rw [(hlast _).2, set_sock_self]
      exact hmb

/-- **Stream data**: it cannot be sent, or the kernel stops, or there is no room and the call succeeds, or it
is queued. -/
theorem sendStream_cases (k : Kern) (so : SockId) (m : List Mbuf) (c : Mbuf) (more : List Mbuf) :
    ((k.sock so).cantSend = true ∧ sendStream k so m (c :: more) = .ok (some .epipe, k)) ∨
      ((k.sock so).cantSend = false ∧ (k.sock so).conn = none ∧ sendStream k so m (c :: more) = .error .uipc3) ∨
      ∃ so2 k', (k.sock so).cantSend = false ∧ (k.sock so).conn = some so2 ∧
        sendStream k so m (c :: more) = .ok (none, k') ∧ k'.refs = k.refs ∧
        ((¬ ControlRoom (k.sock so2).rcv m (chainLen (c :: more)) ∧ ∀ s, (k'.sock s).rcv = (k.sock s).rcv) ∨
          ControlRoom (k.sock so2).rcv m (chainLen (c :: more)) ∧
            ∃ r, (k'.sock so2).rcv.mb = (k.sock so2).rcv.mb ++ [r] ∧ c ∈ r) := by
  unfold sendStream
  by_cases hcant : (k.sock so).cantSend = true
  · rw [if_pos hcant]
    exact .inl ⟨hcant, rfl⟩
  rw [if_neg hcant]
  have hcant' := (Bool.not_eq_true _).mp hcant
  cases hconn : (k.sock so).conn with
  | none => exact .inr (.inl ⟨hcant', rfl, rfl⟩)
  | some so2 =>
    dsimp only
    rcases sbappendcontrol_cases (k.sock so2).rcv m c more with ⟨happ, hroom⟩ | ⟨r, rcv', happ, hmb, hc, hroom⟩
    · rw [happ]
      refine .inr (.inr ⟨so2, _, hcant', rfl, rfl, rfl, .inl ⟨hroom, fun s => ?_⟩⟩)
      refine (set_keeps Usock.rcv ?_ s).trans (set_keeps Usock.rcv ?_ s)
      · refine (set_keeps Usock.rcv ?_ so2).symm
        rfl
      · rfl
    · rw [happ]
      refine .inr (.inr ⟨so2, _, hcant', rfl, rfl, rfl, .inr ⟨hroom, r, ?_, hc⟩⟩)
      rw [set_sock_self]
      exact hmb

/-! ## The request -/

theorem not_queued {k' : Kern} {fps : List FilePtr} (h : ∀ s, (k'.sock s).rcv = (k.sock s).rcv) :
    ¬ Queued k k' control fps := by
  rintro ⟨so2, r, hmb, -⟩
  rw [h so2] at hmb
  exact cons_ne_nil r [] (self_eq_append_right.mp hmb)

theorem pruSend_cases (k : Kern) (so : SockId) (m : List Mbuf) (nam : Option Mbuf) (more : List Mbuf)
    (ofiles : List (Option FilePtr)) (env : Env) (hlen : 12 ≤ control.len) :
    (((k.sock so).attached = false ∨ ¬ Internalizes ofiles control) ∧
      ∃ e, pruSend k so m nam control more ofiles env = .ok (some e, k)) ∨
    (k.sock so).attached ≠ false ∧ Internalizes ofiles control ∧
      ((Stops k so m nam env ∧ ∃ s, pruSend k so m nam control more ofiles env = .error s) ∨
      (¬ Stops k so m nam env ∧ Taken k so m nam (chainLen (control :: more)) env ∧
        ∃ k', pruSend k so m nam control more ofiles env = .ok (none, k') ∧
          k'.refs = k.refs.plus (files ofiles control) ∧ Queued k k' control (files ofiles control)) ∨
      (¬ Stops k so m nam env ∧ ¬ Taken k so m nam (chainLen (control :: more)) env ∧
        ((k.sock so).type = .dgram ∨ (k.sock so).cantSend = true) ∧
        ∃ e k', pruSend k so m nam control more ofiles env = .ok (some e, k') ∧
          k'.refs = k.refs.plus (files ofiles control)) ∨
      ¬ Stops k so m nam env ∧ ¬ Taken k so m nam (chainLen (control :: more)) env ∧
        (k.sock so).type = .stream ∧ (k.sock so).cantSend = false ∧
        ∃ k', pruSend k so m nam control more ofiles env = .ok (none, k') ∧
          ¬ Queued k k' control (files ofiles control)) := by
  unfold pruSend
  by_cases hatt : (k.sock so).attached = false
  · rw [if_pos hatt]
    exact .inl ⟨.inl hatt, _, rfl⟩
  rw [if_neg hatt]
  rcases internalize_spec hlen k.refs with ⟨e, hint, hno⟩ | ⟨c, hint, hyes, haddr, hclen', hrights, -⟩
  · rw [hint]
    exact .inl ⟨.inr hno, _, rfl⟩
  rw [hint]
  refine .inr ⟨hatt, hyes, ?_⟩
  dsimp only
  have hclen : chainLen (c :: more) = chainLen (control :: more) := by
    rw [chainLen_cons, chainLen_cons, hclen']
  obtain ⟨k1, hk1⟩ : ∃ k1 : Kern, { k with refs := k.refs.plus (files ofiles control) } = k1 := ⟨_, rfl⟩
  have hsock : k1.sock = k.sock := by
    rw [← hk1]
  have hrefs : k1.refs = k.refs.plus (files ofiles control) := by
    rw [← hk1]
  have htarget : target k1 so nam env = target k so nam env := by
    rw [← hk1]
    rfl
  have hqueued : ∀ {k' : Kern} {so2 : SockId} {r : List Mbuf},
      (k'.sock so2).rcv.mb = (k.sock so2).rcv.mb ++ [r] → c ∈ r →
        Queued k k' control (files ofiles control) :=
    fun hmb hc => ⟨_, _, hmb, c, hc, haddr, hrights⟩
  rw [hk1]
  unfold Stops Taken
  cases htype : (k.sock so).type with
  | dgram =>
    have hcases := sendDgram_cases k1 so m nam c more env
    rw [htarget, hsock, hrefs, hclen] at hcases
    rcases hcases with ⟨e, htar, hres⟩ | ⟨so2, htar, ⟨p, hres, hhdr⟩ | ⟨k', hres, hk', hhdr, hroom⟩ |
      ⟨r, k', hres, hk', hhdr, hmb, hc, hroom⟩⟩
    · rw [hres, htar]
      refine .inr (.inr (.inl ⟨?_, ?_, .inl rfl, e, k1, rfl, hrefs⟩))
      · rintro ⟨⟨so2, hok⟩, -⟩
        cases hok
      · rintro ⟨so2, hok, -⟩
        cases hok
    · rw [hres, htar]
      exact .inl ⟨⟨⟨so2, rfl⟩, hhdr⟩, p, rfl⟩
    · rw [hres, htar]
      refine .inr (.inr (.inl ⟨?_, ?_, .inl rfl, _, k', rfl, hk'⟩))
      · exact fun h => Bool.false_ne_true (hhdr.symm.trans h.2)
      · rintro ⟨so3, hok, hroom'⟩
        rw [← Except.ok.inj hok] at hroom'
        exact hroom hroom'
    · rw [hres, htar]
      refine .inr (.inl ⟨?_, ⟨so2, rfl, hroom⟩, k', rfl, hk', hqueued hmb hc⟩)
      exact fun h => Bool.false_ne_true (hhdr.symm.trans h.2)
  | stream =>
    have hcases := sendStream_cases k1 so m c more
    rw [hsock, hrefs, hclen] at hcases
    rcases hcases with ⟨hcant, hres⟩ | ⟨hcant, hconn, hres⟩ |
      ⟨so2, k', hcant, hconn, hres, hk', ⟨hroom, hkeep⟩ | ⟨hroom, r, hmb, hc⟩⟩
    · rw [hres]
      refine .inr (.inr (.inl ⟨?_, ?_, .inr hcant, _, k1, rfl, hrefs⟩))
      · exact fun h => Bool.false_ne_true (h.1.symm.trans hcant)
      · exact fun h => Bool.false_ne_true (h.1.symm.trans hcant)
    · rw [hres]
      exact .inl ⟨⟨hcant, hconn⟩, _, rfl⟩
    · rw [hres]
      refine .inr (.inr (.inr ⟨?_, ?_, rfl, hcant, k', rfl, not_queued hkeep⟩))
      · exact fun h => some_ne_none so2 (hconn.symm.trans h.2)
      · rintro ⟨-, so3, hconn', hroom'⟩
        rw [← some.inj (hconn.symm.trans hconn')] at hroom'
        exact hroom hroom'
    · rw [hres]
      refine .inr (.inl ⟨?_, ⟨hcant, so2, hconn, hroom⟩, k', rfl, hk', hqueued hmb hc⟩)
      exact fun h => some_ne_none so2 (hconn.symm.trans h.2)

theorem files_eq_nil_iff (h : Internalizes ofiles control) :
    files ofiles control = [] ↔ messageRights control = [] := by
  have hlength : (files ofiles control).length = (messageRights control).length :=
    filterMap_length_eq_length.mpr h.2
  rw [← length_eq_zero_iff, hlength, length_eq_zero_iff]

theorem plus_files_ne (hlen : 12 ≤ control.len) (h : Internalizes ofiles control)
    (hne : messageRights control ≠ []) (r : Refs) : r.plus (files ofiles control) ≠ r := by
  refine Refs.plus_ne (fun hnil => hne ((files_eq_nil_iff h).mp hnil)) ?_
  have hlength : (files ofiles control).length = (messageRights control).length :=
    filterMap_length_eq_length.mpr h.2
  have hmax := control.len_le
  unfold mclbytes at hmax
  rw [hlength, length_messageRights h.1 hlen]
  omega

/-- **Passing rights is all or nothing exactly when `SendOk` holds**, for every state of the sockets and
every request with a control message. Source: uipc_usrreq, PRU_SEND. Kind: C -/
theorem allOrNothing_iff (k : Kern) (so : SockId) (m : List Mbuf) (nam : Option Mbuf) (control : Mbuf)
    (more : List Mbuf) (ofiles : List (Option FilePtr)) (env : Env) (hlen : 12 ≤ control.len) :
    AllOrNothing k so m nam control more ofiles env ↔ SendOk k so m nam control more ofiles env := by
  rcases pruSend_cases k so m nam more ofiles env hlen with ⟨hrefused, e, hres⟩ |
    ⟨hatt, hint, ⟨hstops, p, hres⟩ | ⟨hnot, htaken, k', hres, hrefs, hqueued⟩ |
      ⟨hnot, htaken, hfails, e, k', hres, hrefs⟩ | ⟨hnot, htaken, htype, hcant, k', hres, hqueued⟩⟩
  · refine iff_of_true (fun err k' hres' => ?_) ?_
    · rw [hres] at hres'
      obtain ⟨rfl, rfl⟩ := Prod.mk.inj (Except.ok.inj hres')
      exact ⟨fun _ => rfl, fun h => absurd h (some_ne_none e)⟩
    · rcases hrefused with hatt | hint
      · exact .inl hatt
      · exact .inr (.inl hint)
  · refine iff_of_true (fun err k' hres' => ?_) (.inr (.inr (.inl hstops)))
    rw [hres] at hres'
    cases hres'
  · refine iff_of_true (fun err k'' hres' => ?_) (.inr (.inr (.inr (.inl htaken))))
    rw [hres] at hres'
    obtain ⟨rfl, rfl⟩ := Prod.mk.inj (Except.ok.inj hres')
    refine ⟨fun h => ?_, fun _ => ⟨hrefs, hqueued⟩⟩
    rcases h with h | h
    · exact absurd rfl h
    · exact absurd hqueued h
  · -- the call fails, and the references stay
    refine ⟨fun h => ?_, fun h err k'' hres' => ?_⟩
    · have hsame : k'.refs = k.refs := (h _ _ hres).1 (.inl (some_ne_none e))
      have hnil : messageRights control = [] := by
        by_contra hne
        exact plus_files_ne hlen hint hne k.refs (hrefs.symm.trans hsame)
      exact .inr (.inr (.inr (.inr ⟨hnil, hfails⟩)))
    · rw [hres] at hres'
      obtain ⟨rfl, rfl⟩ := Prod.mk.inj (Except.ok.inj hres')
      refine ⟨fun _ => ?_, fun h' => absurd h' (some_ne_none e)⟩
      rcases h with h | h | h | h | ⟨hnil, -⟩
      · exact absurd h hatt
      · exact absurd hint h
      · exact absurd h hnot
      · exact absurd h htaken
      · rw [hrefs, (files_eq_nil_iff hint).mpr hnil, Refs.plus_nil]
  · -- the call succeeds, and nothing is queued
    refine iff_of_false (fun h => hqueued ((h _ _ hres).2 rfl).2) ?_
    rintro (h | h | h | h | ⟨-, h | h⟩)
    · exact hatt h
    · exact h hint
    · exact hnot h
    · exact htaken h
    · rw [htype] at h
      cases h
    · exact Bool.false_ne_true (hcant.symm.trans h)

/-! ## Two requests -/

/-- A control message with descriptor 0. -/
def oneDescriptor : Mbuf where
  addr := ⟨0, nmbuf_pos⟩
  type := .control
  off := 0
  bytes := [16, 0, 0, 0, 0xff, 0xff, 0, 0, 1, 0, 0, 0, 0, 0, 0, 0]
  ext := none
  pkthdr := none
  eor := false
  room := by
    simp only [List.length_cons, List.length_nil]
    decide
  ext_le := mlen_le_mclbytes

/-- Datagram sockets without an address, connected as `conn` says. -/
def dgrams (conn : Option SockId) : Kern where
  refs := ⟨fun _ => 1, fun _ => 0, 0⟩
  sock _ := ⟨.dgram, true, false, false, conn, [], none, empty 4096 8192, 4096, 8192, 0, 0⟩

/-- No name leads anywhere, and there is an mbuf. -/
def noNames : Env where
  lookup _ := .error 2
  mget := some ⟨1, one_lt_nmbuf⟩

/-- To a connected socket with an empty buffer the message is sent.
Source: uipc_usrreq, PRU_SEND. Kind: C -/
theorem allOrNothing_connected :
    AllOrNothing (dgrams (some 1)) 0 [] none oneDescriptor [] [some 4] noNames := by
  refine (allOrNothing_iff (dgrams (some 1)) 0 [] none oneDescriptor [] [some 4] noNames (by decide)).mpr
    (.inr (.inr (.inr (.inl ⟨1, rfl, ?_, ?_, ?_⟩))))
  · decide
  · decide
  · exact some_ne_none _

/-- A datagram of an unconnected socket is refused, and its reference stays counted.
Source: uipc_usrreq, PRU_SEND. Kind: C -/
theorem not_allOrNothing : ¬ AllOrNothing (dgrams none) 0 [] none oneDescriptor [] [some 4] noNames := by
  intro h
  have hres : ∃ k', pruSend (dgrams none) 0 [] none oneDescriptor [] [some 4] noNames =
      .ok (some .enotconn, k') ∧ k'.refs.rights = 1 := ⟨_, rfl, rfl⟩
  obtain ⟨k', hres, hrights⟩ := hres
  have hsame := (h _ _ hres).1 (.inl (some_ne_none _))
  rw [hsame] at hrights
  exact absurd hrights (by decide)

end Bsd386.Kern.Unp.Send
