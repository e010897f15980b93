import Bsd386.Net.Ppp.Restart

/-!
# Agreement of two endpoints

Two endpoints run the automaton for one control protocol. A channel may drop, duplicate, delay and
reorder packets: an endpoint receives any packet that the other has sent, any number of times. An
endpoint remembers here whether it has acknowledged the last Configure-Request it received, and
whether the last one it sent has been acknowledged (`Endpoint`).
-/

namespace Bsd386.Net.Ppp

open List Lib

/-! ## Endpoints -/

/-- The identifier of the last Configure-Request among packets.
Source: none: what is claimed -/
def lastReqIn (ps : List Packet) : Option (BitVec 8) :=
  (ps.filterMap fun p => match p with
    | .confReq id => some id
    | _ => none).getLast?

/-- One end of the link. `answered`: it has sent a Configure-Ack for the last Configure-Request it
received in full. `lastReq`: the identifier of the last Configure-Request it sent. `acked`: since it
sent that, it has received a Configure-Ack with this identifier.
Source: none: what is claimed -/
structure Endpoint where
  cp : Cp
  answered : Bool
  lastReq : Option (BitVec 8)
  acked : Bool
deriving DecidableEq

def Endpoint.step (k : Conf) (e : Endpoint) (ev : Event × Supply) : Endpoint :=
  let cp := Ppp.step k e.cp ev
  let sent := cp.out.drop e.cp.out.length
  { cp := cp
    answered := match ev.1 with
      | .packet (.confReq id _) => decide (.confAck id ∈ sent)
      | _ => e.answered
    lastReq := (lastReqIn sent).or e.lastReq
    acked :=
      if (lastReqIn sent).isSome then false
      else match ev.1 with
        | .packet (.confAck id) => e.acked || decide (e.lastReq = some id)
        | _ => e.acked }

/-- In `CP_OPENED` an endpoint has acknowledged and has been acknowledged.
Source: none: what is claimed -/
def Agreed (e : Endpoint) : Prop :=
  e.cp.state = .opened → e.answered = true ∧ e.acked = true

/-- The events by which agreement is kept:

* in `CP_ACKSENT` and `CP_OPENED` a Configure-Request is answered, or the link is closed for it;
* a Configure-Ack that counts is for a Configure-Request that was sent;
* a Terminate-Ack in `CP_OPENED` does not make a new Configure-Request go out. -/
def AgreeOk (e : Endpoint) (ev : Event × Supply) : Prop :=
  match ev.1 with
  | .packet (.confReq _ opts) => e.cp.state = .ackSent ∨ e.cp.state = .opened →
      Answered ev.2 opts ∨ Cp.parseOpts ⟨false, false, false⟩ opts = none
  | .packet (.confAck id) => id = e.cp.id →
      e.cp.state = .reqSent ∨ e.cp.state = .ackSent → e.lastReq = some id
  | .packet (.termAck _) => e.cp.state = .opened → ¬(ev.2.creq = true ∧ ev.2.room = true)
  | _ => True

/-- What the states say: in `CP_ACKSENT` and `CP_OPENED` the endpoint has acknowledged, in `CP_ACKRCVD`
and `CP_OPENED` it has been acknowledged. -/
structure Inv (e : Endpoint) : Prop where
  answered : e.cp.state = .ackSent ∨ e.cp.state = .opened → e.answered = true
  acked : e.cp.state = .ackRcvd ∨ e.cp.state = .opened → e.acked = true

/-! ## What each part sends -/

namespace Cp

section fields

variable (k : Conf) (fs : Cp)

@[simp] theorem out_sendout (room : Bool) (m : Option Packet) :
    (sendout room m fs).out = fs.out ++ (if room then m.toList else []) := by
  unfold sendout
  cases m
  all_goals
    cases room
    all_goals simp

@[simp] theorem out_creq (mbuf room : Bool) : (creq mbuf room fs).out =
    fs.out ++ (if room && mbuf then [.confReq (fs.id + 1)] else []) := by
  cases mbuf
  all_goals
    cases room
    all_goals simp [creq, timeout]

theorem cpClose_spec (room : Bool) :
    (∃ ps, (cpClose k room fs).out = fs.out ++ ps ∧ lastReqIn ps = none) ∧
      (cpClose k room fs).state ≠ .ackSent ∧ (cpClose k room fs).state ≠ .ackRcvd ∧
      (cpClose k room fs).state ≠ .opened := by
  constructor
  · have hterm : ∀ fs' : Cp, fs'.out = fs.out →
        ∃ ps, (terminate k room fs').out = fs.out ++ ps ∧ lastReqIn ps = none := by
      intro fs' hout
      refine ⟨if room then [.termReq 0] else [],
        by simp [terminate, timeout, untimeout, newstate, hout], ?_⟩
      cases room
      all_goals rfl
    cases hs : fs.state
    case opened =>
      simp only [cpClose, hs]
      exact hterm _ rfl
    case reqSent | ackRcvd | ackSent =>
      simp only [cpClose, hs]
      exact hterm _ rfl
    all_goals exact ⟨[], by simp [cpClose, hs, newstate], rfl⟩
  · cases hs : fs.state
    all_goals simp [cpClose, hs, newstate]

end fields

end Cp

theorem answer_spec (k : Conf) (sup : Supply) (id : BitVec 8) (opts : List (OptRes × Bool))
    (fs : Cp) (hok : fs.state = .ackSent ∨ fs.state = .opened →
      Answered sup opts ∨ Cp.parseOpts ⟨false, false, false⟩ opts = none) :
    ∃ ps, (fs.answer k sup id opts).out = fs.out ++ ps ∧ lastReqIn ps = none ∧
      ((fs.answer k sup id opts).state = .ackSent ∨ (fs.answer k sup id opts).state = .opened →
        .confAck id ∈ ps) ∧
      ((fs.answer k sup id opts).state = .ackRcvd ∨ (fs.answer k sup id opts).state = .opened →
        fs.state = .ackRcvd) := by
  rcases answer_cases k sup id opts fs with
    ⟨-, heq⟩ | ⟨hans, hparse, heq⟩ | ⟨-, -, m, hm, heq⟩ | ⟨-, -, heq⟩
  · rw [heq]
    obtain ⟨⟨ps, hout, hnone⟩, h1, h2, h3⟩ := Cp.cpClose_spec k fs sup.room
    exact ⟨ps, hout, hnone, fun h => absurd h (not_or.mpr ⟨h1, h3⟩),
      fun h => absurd h (not_or.mpr ⟨h2, h3⟩)⟩
  · rw [heq]
    have hnot : ¬(fs.state = .ackSent ∨ fs.state = .opened) := fun h => (hok h).elim hans hparse
    refine ⟨[], (append_nil _).symm, rfl, fun h => absurd h hnot, fun h => ?_⟩
    exact h.resolve_right fun h' => hnot (.inr h')
  · rw [heq]
    refine ⟨_, Cp.out_sendout _ sup.room m |>.trans (by split <;> rfl), ?_, ?_, ?_⟩
    · rcases hm with rfl | rfl | rfl
      all_goals
        cases sup.room
        all_goals rfl
    · rw [Cp.state_sendout]
      split
      · simp [Cp.newstate]
      · next hrcvd =>
          rw [not_not.mp hrcvd]
          simp
    · rw [Cp.state_sendout]
      split
      · simp [Cp.newstate]
      · next hrcvd => exact fun _ => not_not.mp hrcvd
  · rw [heq, Cp.state_sendout]
    split
    · next hrcvd =>
      exact ⟨[.confAck id], by simp [Cp.hook, Cp.newstate], rfl, by simp, fun _ => hrcvd⟩
    · exact ⟨[.confAck id], by simp [Cp.newstate], rfl, by simp, by simp [Cp.newstate]⟩

theorem closes_spec (k : Conf) (room : Bool) (fs : Cp) (closes : List Bool) :
    let fs' := closes.foldl (fun fs close => if close then fs.cpClose k room else fs) fs
    ∃ ps, fs'.out = fs.out ++ ps ∧ (fs'.state = fs.state ∨
      (fs'.state ≠ .ackSent ∧ fs'.state ≠ .ackRcvd ∧ fs'.state ≠ .opened)) := by
  induction closes generalizing fs with
  | nil => exact ⟨[], (append_nil _).symm, .inl rfl⟩
  | cons close closes ih =>
    rw [foldl_cons]
    split
    · obtain ⟨⟨ps1, hout1, -⟩, hleft⟩ := Cp.cpClose_spec k fs room
      obtain ⟨ps2, hout2, hstate⟩ := ih (fs.cpClose k room)
      refine ⟨ps1 ++ ps2, by rw [hout2, hout1, append_assoc], .inr ?_⟩
      rcases hstate with hstate | hstate
      · rw [hstate]
        exact hleft
      · exact hstate
    · exact ih fs

/-! ## One event -/

section step

variable {k : Conf} {e : Endpoint}

theorem Endpoint.step_of_out {ev : Event × Supply} {ps : List Packet}
    (hout : (Ppp.step k e.cp ev).out = e.cp.out ++ ps) :
    (e.step k ev).cp = Ppp.step k e.cp ev ∧
      (e.step k ev).answered = (match ev.1 with
        | .packet (.confReq id _) => decide (.confAck id ∈ ps)
        | _ => e.answered) ∧
      (e.step k ev).acked = (if (lastReqIn ps).isSome then false
        else match ev.1 with
          | .packet (.confAck id) => e.acked || decide (e.lastReq = some id)
          | _ => e.acked) := by
  simp only [Endpoint.step, hout, drop_left, and_self]

theorem inv_of_state {ev : Event × Supply} (h1 : (Ppp.step k e.cp ev).state ≠ .ackSent)
    (h2 : (Ppp.step k e.cp ev).state ≠ .ackRcvd) (h3 : (Ppp.step k e.cp ev).state ≠ .opened) :
    Inv (e.step k ev) :=
  ⟨fun h => absurd h (not_or.mpr ⟨h1, h3⟩), fun h => absurd h (not_or.mpr ⟨h2, h3⟩)⟩

theorem inv_of_frame (h : Inv e) {ev : Event × Supply}
    (hev : ∀ id opts, ev.1 ≠ .packet (.confReq id opts)) {ps : List Packet}
    (hout : (Ppp.step k e.cp ev).out = e.cp.out ++ ps)
    (hsent : (Ppp.step k e.cp ev).state = .ackSent ∨ (Ppp.step k e.cp ev).state = .opened →
      e.cp.state = .ackSent ∨ e.cp.state = .opened)
    (hrcvd : (Ppp.step k e.cp ev).state = .ackRcvd ∨ (Ppp.step k e.cp ev).state = .opened →
      lastReqIn ps = none ∧ (e.cp.state = .ackRcvd ∨ e.cp.state = .opened)) :
    Inv (e.step k ev) := by
  obtain ⟨hcp, hans, hack⟩ := Endpoint.step_of_out hout
  refine ⟨fun hs => ?_, fun hs => ?_⟩
  · rw [hans]
    rw [hcp] at hs
    have hyes := h.answered (hsent hs)
    split
    · next id opts heq => exact absurd heq (hev id opts)
    · exact hyes
  · rw [hack]
    rw [hcp] at hs
    obtain ⟨hnone, hstate⟩ := hrcvd hs
    rw [hnone, if_neg (by simp)]
    have hyes := h.acked hstate
    split
    · simp [hyes]
    · exact hyes

theorem inv_of_eq (h : Inv e) {ev : Event × Supply}
    (hev : ∀ id opts, ev.1 ≠ .packet (.confReq id opts))
    (hout : (Ppp.step k e.cp ev).out = e.cp.out)
    (hstate : (Ppp.step k e.cp ev).state = e.cp.state) : Inv (e.step k ev) := by
  have hnone : (Ppp.step k e.cp ev).out = e.cp.out ++ [] := by rw [hout, append_nil]
  refine inv_of_frame h hev hnone ?_ ?_
  all_goals rw [hstate]
  · exact id
  · exact fun hs => ⟨rfl, hs⟩

theorem inv_confReq (h : Inv e) {sup : Supply} {id : BitVec 8} {opts : List (OptRes × Bool)}
    (hup : ¬(e.cp.state = .initial ∨ e.cp.state = .starting))
    (hok : AgreeOk e (.packet (.confReq id opts), sup)) :
    Inv (e.step k (.packet (.confReq id opts), sup)) := by
  have hstep : Ppp.step k e.cp (.packet (.confReq id opts), sup) = e.cp.confReq k sup id opts := by
    simp [Ppp.step, cpIn, hup]
  -- the answer is given in the state `fs`, after the packets `ps0`
  have hans : ∀ (fs : Cp) (ps0 : List Packet), e.cp.confReq k sup id opts = fs.answer k sup id opts →
      fs.out = e.cp.out ++ ps0 →
      (fs.state = .ackSent ∨ fs.state = .opened →
        Answered sup opts ∨ Cp.parseOpts ⟨false, false, false⟩ opts = none) →
      (fs.state = .ackRcvd → lastReqIn ps0 = none ∧ e.cp.state = .ackRcvd) →
      Inv (e.step k (.packet (.confReq id opts), sup)) := by
    intro fs ps0 heq hfs hcond hrcvd
    obtain ⟨ps, hout, hnone, h1, h2⟩ := answer_spec k sup id opts fs hcond
    rw [← heq, ← hstep] at hout h1 h2
    rw [hfs, append_assoc] at hout
    obtain ⟨hcp, hans, hack⟩ := Endpoint.step_of_out hout
    refine ⟨fun hs => ?_, fun hs => ?_⟩
    · rw [hans]
      rw [hcp] at hs
      exact decide_eq_true (mem_append_right _ (h1 hs))
    · rw [hack]
      rw [hcp] at hs
      obtain ⟨hnone0, hstate⟩ := hrcvd (h2 hs)
      have hnil : lastReqIn (ps0 ++ ps) = none := by
        unfold lastReqIn at *
        rw [List.getLast?_eq_none_iff] at hnone hnone0 ⊢
        rw [List.filterMap_append, hnone, hnone0]
        rfl
      rw [hnil, if_neg (by simp)]
      exact h.acked (.inl hstate)
  have hresync : ∀ fs : Cp, ∃ ps0, (Cp.resync sup fs).out = fs.out ++ ps0 :=
    fun fs => ⟨_, Cp.out_creq (Cp.hook .tld fs) sup.creq sup.creqRoom⟩
  cases hs : e.cp.state with
  | initial => exact absurd (.inl hs) hup
  | starting => exact absurd (.inr hs) hup
  | closing | stopping | closed =>
    apply inv_of_state
    all_goals
      rw [hstep]
      simp [Cp.confReq, hs]
  | stopped =>
    obtain ⟨ps0, hps⟩ := hresync { e.cp with rc := k.maxconf }
    refine hans (Cp.resync sup { e.cp with rc := k.maxconf }) ps0 (by simp [Cp.confReq, hs]) hps
      ?_ ?_
    · simp [Cp.resync, Cp.hook, hs]
    · simp [Cp.resync, Cp.hook, hs]
  | opened =>
    obtain ⟨ps0, hps⟩ := hresync e.cp
    refine hans (Cp.resync sup e.cp) ps0 (by simp [Cp.confReq, hs]) hps ?_ ?_
    · exact fun _ => hok (.inr hs)
    · simp [Cp.resync, Cp.hook, hs]
  | reqSent | ackRcvd | ackSent =>
    refine hans e.cp [] (by simp [Cp.confReq, hs]) (append_nil _).symm hok ?_
    exact fun hrcvd => ⟨rfl, hrcvd⟩

theorem inv_confAck (h : Inv e) {sup : Supply} {id : BitVec 8}
    (hup : ¬(e.cp.state = .initial ∨ e.cp.state = .starting))
    (hok : AgreeOk e (.packet (.confAck id), sup)) :
    Inv (e.step k (.packet (.confAck id), sup)) := by
  have hstep : Ppp.step k e.cp (.packet (.confAck id), sup) = e.cp.confAck k sup id := by
    simp [Ppp.step, cpIn, hup]
  by_cases hid : id = e.cp.id
  · -- it enters `CP_ACKRCVD` or `CP_OPENED` without sending
    have hopen : ∀ s, (Ppp.step k e.cp (.packet (.confAck id), sup)).out = e.cp.out →
        (Ppp.step k e.cp (.packet (.confAck id), sup)).state = s → e.lastReq = some id →
        (s = .opened → e.cp.state = .ackSent) → s = .ackRcvd ∨ s = .opened →
        Inv (e.step k (.packet (.confAck id), sup)) := by
      intro s hout hstate hlast hsent hs'
      have hnone : (Ppp.step k e.cp (.packet (.confAck id), sup)).out = e.cp.out ++ [] := by
        rw [hout, append_nil]
      obtain ⟨hcp, hans, hack⟩ := Endpoint.step_of_out hnone
      refine ⟨fun hs => ?_, fun _ => ?_⟩
      · rw [hcp, hstate] at hs
        rw [hans]
        rcases hs' with rfl | rfl
        · exact absurd hs (by simp)
        · exact h.answered (.inl (hsent rfl))
      · rw [hack]
        simp [lastReqIn, hlast]
    cases hs : e.cp.state with
    | initial => exact absurd (.inl hs) hup
    | starting => exact absurd (.inr hs) hup
    | reqSent =>
      refine hopen .ackRcvd ?_ ?_ (hok hid (.inl hs)) (by simp) (.inl rfl)
      all_goals
        rw [hstep]
        simp [Cp.confAck, hid, Cp.untimeout, Cp.newstate, hs]
    | ackSent =>
      refine hopen .opened ?_ ?_ (hok hid (.inr hs)) (fun _ => hs) (.inr rfl)
      all_goals
        rw [hstep]
        simp [Cp.confAck, hid, Cp.untimeout, Cp.newstate, Cp.hook, hs]
    | _ =>
      apply inv_of_state
      all_goals
        rw [hstep]
        simp [Cp.confAck, hid, Cp.untimeout, Cp.newstate, Cp.hook, hs]
  · apply inv_of_eq h (by simp)
    all_goals
      rw [hstep]
      simp [Cp.confAck, hid]

theorem inv_confNak (h : Inv e) {sup : Supply} {id : BitVec 8} {closes : List Bool}
    {ev : Event × Supply} (hev : ∀ id opts, ev.1 ≠ .packet (.confReq id opts))
    (hup : ¬(e.cp.state = .initial ∨ e.cp.state = .starting))
    (hstep : Ppp.step k e.cp ev = e.cp.confNak k sup id closes) : Inv (e.step k ev) := by
  have hretry : ∀ fs : Cp, (e.cp.confNak k sup id closes) = fs.retry k sup closes →
      fs.out = e.cp.out → (fs.state = .reqSent ∨ fs.state = .ackSent ∧ e.cp.state = .ackSent) →
      Inv (e.step k ev) := by
    intro fs heq hfs hstate
    obtain ⟨ps, hout, hcloses⟩ := closes_spec k sup.closeRoom fs closes
    have hretry := Cp.out_creq
      (closes.foldl (fun fs close => if close then fs.cpClose k sup.closeRoom else fs) fs)
      sup.creq sup.room
    rw [hout, hfs, append_assoc] at hretry
    refine inv_of_frame h hev (by rw [hstep, heq]; exact hretry) ?_ ?_
    all_goals
      rw [hstep, heq, Cp.retry, Cp.state_creq]
      rcases hcloses with hsame | ⟨h1, h2, h3⟩
    · rw [hsame]
      rcases hstate with hs | ⟨hs, hs'⟩
      · simp [hs]
      · exact fun _ => .inl hs'
    · exact fun hs => absurd hs (not_or.mpr ⟨h1, h3⟩)
    · rw [hsame]
      rcases hstate with hs | ⟨hs, -⟩
      all_goals simp [hs]
    · exact fun hs => absurd hs (not_or.mpr ⟨h2, h3⟩)
  by_cases hid : id = e.cp.id
  · cases hs : e.cp.state with
    | initial => exact absurd (.inl hs) hup
    | starting => exact absurd (.inr hs) hup
    | closing | stopping | closed | stopped =>
      apply inv_of_state
      all_goals
        rw [hstep]
        simp [Cp.confNak, hid, Cp.untimeout, hs]
    | reqSent =>
      refine hretry { e.cp with pending := k.untimeout e.cp.pending, rc := k.maxconf }
        ?_ rfl (.inl hs)
      simp [Cp.confNak, hid, Cp.untimeout, hs]
    | ackSent =>
      refine hretry { e.cp with pending := k.untimeout e.cp.pending, rc := k.maxconf }
        ?_ rfl (.inr ⟨hs, hs⟩)
      simp [Cp.confNak, hid, Cp.untimeout, hs]
    | ackRcvd =>
      refine hretry (Cp.newstate .reqSent { e.cp with pending := k.untimeout e.cp.pending })
        ?_ rfl (.inl rfl)
      simp [Cp.confNak, hid, Cp.untimeout, hs]
    | opened =>
      refine hretry (Cp.newstate .reqSent (Cp.hook .tld
        { e.cp with pending := k.untimeout e.cp.pending })) ?_ rfl (.inl rfl)
      simp [Cp.confNak, hid, Cp.untimeout, hs]
  · apply inv_of_eq h hev
    all_goals
      rw [hstep]
      simp [Cp.confNak, hid]

theorem step_invariant (h : Inv e) {ev : Event × Supply} (hok : AgreeOk e ev) :
    Inv (e.step k ev) := by
  obtain ⟨ev, sup⟩ := ev
  cases ev with
  | packet p =>
    by_cases hup : e.cp.state = .initial ∨ e.cp.state = .starting
    · have hstate : (Ppp.step k e.cp (.packet p, sup)) = e.cp := by
        simp [Ppp.step, cpIn, hup]
      apply inv_of_state
      all_goals
        rw [hstate]
        rcases hup with hs | hs
        all_goals simp [hs]
    · cases p with
      | confReq id opts => exact inv_confReq h hup hok
      | confAck id => exact inv_confAck h hup hok
      | confNak id closes =>
        have hstep : Ppp.step k e.cp (.packet (.confNak id closes), sup) =
            e.cp.confNak k sup id closes := by simp [Ppp.step, cpIn, hup]
        exact inv_confNak h (by simp) hup hstep
      | confRej id =>
        have hstep : Ppp.step k e.cp (.packet (.confRej id), sup) =
            e.cp.confNak k sup id [] := by simp [Ppp.step, cpIn, hup]
        exact inv_confNak h (by simp) hup hstep
      | termReq id =>
        have hstep : Ppp.step k e.cp (.packet (.termReq id), sup) = e.cp.termReq sup id := by
          simp [Ppp.step, cpIn, hup]
        apply inv_of_state
        all_goals
          rw [hstep]
          cases hs : e.cp.state
          all_goals simp [Cp.termReq, Cp.newstate, hs]
      | termAck id =>
        have hstep : Ppp.step k e.cp (.packet (.termAck id), sup) = e.cp.termAck k sup := by
          simp [Ppp.step, cpIn, hup]
        cases hs : e.cp.state with
        | opened =>
          apply inv_of_eq h (by simp)
          all_goals rw [hstep]
          · have hlost := hok hs
            simp only [Cp.termAck, Cp.untimeout, hs, Cp.out_creq, Cp.hook]
            rw [if_neg fun hsent => hlost (by simpa [and_comm] using hsent), append_nil]
          · simp [Cp.termAck, Cp.untimeout, Cp.hook, hs]
        | ackSent =>
          apply inv_of_eq h (by simp)
          all_goals
            rw [hstep]
            simp [Cp.termAck, Cp.untimeout, hs]
        | _ =>
          apply inv_of_state
          all_goals
            rw [hstep]
            simp [Cp.termAck, Cp.untimeout, Cp.newstate, Cp.hook, hs]
      | other =>
        have hstep : Ppp.step k e.cp (.packet .other, sup) =
            e.cp.sendout sup.room (if sup.reply then some .other else none) := by
          simp [Ppp.step, cpIn, hup]
        refine inv_of_frame h (by simp) (by rw [hstep, Cp.out_sendout]) ?_ ?_
        · rw [hstep, Cp.state_sendout]
          exact id
        · rw [hstep, Cp.state_sendout]
          refine fun hs => ⟨?_, hs⟩
          cases sup.reply
          all_goals
            cases sup.room
            all_goals rfl
  | timeout =>
    by_cases hp : e.cp.pending = 0
    · have hsame : Ppp.step k e.cp (.timeout, sup) = e.cp := by simp [Ppp.step, hp]
      exact inv_of_eq h (by simp) (by rw [hsame]) (by rw [hsame])
    have hstep : Ppp.step k e.cp (.timeout, sup) =
        Cp.cpTimeout sup { e.cp with pending := e.cp.pending - 1 } := by simp [Ppp.step, hp]
    by_cases hrc : e.cp.rc = 1
    · apply inv_of_state
      all_goals
        rw [hstep]
        by_cases hs : e.cp.state = .closing
        all_goals simp [Cp.cpTimeout, hrc, Cp.hook, Cp.newstate, hs]
    cases hs : e.cp.state with
    | ackSent =>
      have hout : (Ppp.step k e.cp (.timeout, sup)).out = e.cp.out ++
          (if sup.room && sup.creq then [.confReq (e.cp.id + 1)] else []) := by
        rw [hstep]
        simp [Cp.cpTimeout, hrc, hs]
      refine inv_of_frame h (by simp) hout ?_ ?_
      all_goals
        rw [hstep]
        simp [Cp.cpTimeout, hrc, hs]
    | opened =>
      apply inv_of_eq h (by simp)
      all_goals
        rw [hstep]
        simp [Cp.cpTimeout, hrc, hs]
    | _ =>
      apply inv_of_state
      all_goals
        rw [hstep]
        simp [Cp.cpTimeout, hrc, Cp.timeout, Cp.newstate, hs]
  | up =>
    apply inv_of_state
    all_goals simp [Ppp.step, Cp.cpUp, Cp.newstate]
  | down =>
    apply inv_of_state
    all_goals
      cases hs : e.cp.state
      all_goals simp [Ppp.step, Cp.cpDown, Cp.untimeout, Cp.newstate, hs]
  | close =>
    obtain ⟨-, h1, h2, h3⟩ := Cp.cpClose_spec k e.cp sup.room
    exact inv_of_state h1 h2 h3

end step

/-! ## Two endpoints -/

/-- What a received packet was sent as; packets of the codes that `ppp_cp_in` leaves to others may come
from anywhere.
Source: ppp_cp_in -/
def Rcvd.sentAs : Rcvd → Option Packet
  | .confReq id _ => some (.confReq id)
  | .confAck id => some (.confAck id)
  | .confNak id _ => some (.confNak id)
  | .confRej id => some (.confRej id)
  | .termReq id => some (.termReq id)
  | .termAck id => some (.termAck id)
  | .other => none

/-- An event can happen at an endpoint when the packets `sent` have been sent to it: what it receives
is one of them. Nothing says that it receives each, that it does so in their order, or only once. -/
def Arrives (sent : List Packet) : Event → Prop
  | .packet p => ∀ q ∈ p.sentAs, q ∈ sent
  | _ => True

/-- Two endpoints of a link. -/
structure Link where
  a : Endpoint
  b : Endpoint

/-- A protocol as `ppp_init` leaves it, which has sent and received nothing.
Source: ppp_init -/
def Endpoint.start (id : BitVec 8) (rc : ℕ) : Endpoint := ⟨Ppp.start id rc, false, none, false⟩

/-- Both ends are as `ppp_init` leaves them. -/
def Link.Init (l : Link) : Prop :=
  (∃ id rc, l.a = .start id rc) ∧ ∃ id rc, l.b = .start id rc

/-- One event, at one end, under a condition `ok`. -/
inductive Link.Next (ka kb : Conf) (ok : Endpoint → Event × Supply → Prop) : Link → Link → Prop where
  | atA {l : Link} (ev : Event × Supply) : Arrives l.b.cp.out ev.1 → ok l.a ev →
      Next ka kb ok l { l with a := l.a.step ka ev }
  | atB {l : Link} (ev : Event × Supply) : Arrives l.a.cp.out ev.1 → ok l.b ev →
      Next ka kb ok l { l with b := l.b.step kb ev }

/-- The configurations that two endpoints reach. -/
def Link.Reachable (ka kb : Conf) (ok : Endpoint → Event × Supply → Prop) : Link → Prop :=
  Transition.Reach Link.Init (Link.Next ka kb ok)

theorem inv_start (id : BitVec 8) (rc : ℕ) : Inv (.start id rc) :=
  ⟨fun h => by simp [Endpoint.start, start] at h, fun h => by simp [Endpoint.start, start] at h⟩

/-- **Agreement**: over any run of two endpoints in which every event meets `AgreeOk`, an endpoint in
`CP_OPENED` has acknowledged the last Configure-Request it received, and the last one that it sent
has been acknowledged. Kind: C -/
theorem agreed_of_reach {ka kb : Conf} {l : Link} (h : l.Reachable ka kb AgreeOk) :
    Agreed l.a ∧ Agreed l.b := by
  have hinv : Inv l.a ∧ Inv l.b := by
    refine Transition.Reach.invariant (I := fun l : Link => Inv l.a ∧ Inv l.b) ?_ ?_ h
    · rintro ⟨a, b⟩ ⟨⟨ida, rca, rfl⟩, idb, rcb, rfl⟩
      exact ⟨inv_start ida rca, inv_start idb rcb⟩
    · rintro l l' - ⟨ha, hb⟩ hnext
      cases hnext with
      | atA ev _ hok => exact ⟨step_invariant ha hok, hb⟩
      | atB ev _ hok => exact ⟨ha, step_invariant hb hok⟩
  exact ⟨fun hs => ⟨hinv.1.answered (.inr hs), hinv.1.acked (.inr hs)⟩,
    fun hs => ⟨hinv.2.answered (.inr hs), hinv.2.acked (.inr hs)⟩⟩

/-! ## Two runs -/

instance (sup : Supply) (opts : List (OptRes × Bool)) : Decidable (Answered sup opts) :=
  match hparse : Cp.parseOpts ⟨false, false, false⟩ opts with
  | none => isFalse (by simp [Answered, hparse])
  | some r =>
    decidable_of_iff
      (if r.reject ∨ r.nak then r.m0 = true else sup.reply = true ∧ sup.room = true)
      (by simp [Answered, hparse])

instance (e : Endpoint) : (ev : Event × Supply) → Decidable (AgreeOk e ev)
  | (.packet (.confReq _ _), _) | (.packet (.confAck _), _) => inferInstanceAs (Decidable (_ → _))
  | (.packet (.termAck _), _) => inferInstanceAs (Decidable (_ → _))
  | (.packet (.confNak _ _), _) | (.packet (.confRej _), _) | (.packet (.termReq _), _)
  | (.packet .other, _) | (.timeout, _) | (.up, _) | (.down, _) | (.close, _) => isTrue trivial

instance (sent : List Packet) : (ev : Event) → Decidable (Arrives sent ev)
  | .packet p => inferInstanceAs (Decidable (∀ q ∈ p.sentAs, q ∈ sent))
  | .timeout | .up | .down | .close => isTrue trivial

/-- One event, at the first end or at the second. -/
def Link.act (ka kb : Conf) (l : Link) (e : Bool × Event × Supply) : Link :=
  if e.1 then { l with a := l.a.step ka e.2 } else { l with b := l.b.step kb e.2 }

/-- Each event of a run can happen, and meets `ok`. -/
def Link.Can (ka kb : Conf) (ok : Endpoint → Event × Supply → Prop) (l : Link) :
    List (Bool × Event × Supply) → Prop
  | [] => True
  | e :: es => Arrives (if e.1 then l.b else l.a).cp.out e.2.1 ∧
      ok (if e.1 then l.a else l.b) e.2 ∧ (l.act ka kb e).Can ka kb ok es

theorem Link.reachable_foldl {ka kb : Conf} {ok : Endpoint → Event × Supply → Prop} {l : Link}
    (h : l.Reachable ka kb ok) {es : List (Bool × Event × Supply)} (hes : l.Can ka kb ok es) :
    (es.foldl (Link.act ka kb) l).Reachable ka kb ok := by
  induction es generalizing l with
  | nil => exact h
  | cons e es ih =>
    obtain ⟨side, ev⟩ := e
    obtain ⟨harr, hok, hes⟩ := hes
    refine ih ?_ hes
    cases side with
    | true => exact Transition.Reach.step h (.atA ev harr hok)
    | false => exact Transition.Reach.step h (.atB ev harr hok)

/-- Two links that have just been initialized. Source: ppp_init -/
def Link.fresh : Link := ⟨.start 0 0, .start 0 0⟩

theorem Link.reachable_fresh {ka kb : Conf} {ok : Endpoint → Event × Supply → Prop} :
    Link.fresh.Reachable ka kb ok :=
  .start ⟨⟨0, 0, rfl⟩, 0, 0, rfl⟩

/-- Both ends come up, each request is acknowledged, and the first end opens. -/
def Link.opening : List (Bool × Event × Supply) :=
  [(true, .up, .all), (false, .up, .all), (false, .packet (.confReq 1 []), .all),
    (true, .packet (.confReq 1 []), .all), (true, .packet (.confAck 1), .all)]

/-- The first end closes and comes up again, and opens; then a second copy of the Terminate-Ack
arrives, and it asks anew without leaving `CP_OPENED`.
Source: ppp_cp_in -/
def Link.reopening : List (Bool × Event × Supply) :=
  [(true, .up, .all), (true, .close, .all), (false, .up, .all),
    (false, .packet (.termReq 0), .all), (true, .packet (.termAck 0), .all), (true, .down, .all),
    (true, .up, .all), (false, .packet (.confReq 2 []), .all),
    (true, .packet (.confReq 1 []), .all), (true, .packet (.confAck 2), .all),
    (true, .packet (.termAck 0), .all)]

instance decidableCan (ka kb : Conf) (ok : Endpoint → Event × Supply → Prop)
    [∀ e ev, Decidable (ok e ev)] (l : Link) :
    (es : List (Bool × Event × Supply)) → Decidable (l.Can ka kb ok es)
  | [] => isTrue trivial
  | e :: es =>
    have := decidableCan ka kb ok (l.act ka kb e) es
    inferInstanceAs (Decidable (_ ∧ _ ∧ _))

/-- The opening of a link. Kind: C -/
theorem agreed_opening :
    let l := Link.opening.foldl (Link.act pppDefaults pppDefaults) .fresh
    l.a.cp.state = .opened ∧ Agreed l.a ∧ Agreed l.b :=
  ⟨by decide, agreed_of_reach (Link.reachable_foldl Link.reachable_fresh (by decide))⟩

/-- An end in `CP_OPENED` that has not been acknowledged: without a condition it is reachable.
Source: ppp_cp_in. Kind: C -/
theorem not_agreed_reopening :
    ∃ l : Link, l.Reachable pppDefaults pppDefaults (fun _ _ => True) ∧ ¬Agreed l.a :=
  ⟨Link.reopening.foldl (Link.act pppDefaults pppDefaults) .fresh,
    Link.reachable_foldl Link.reachable_fresh (by decide), by
      intro h
      have hacked := (h (by decide)).2
      revert hacked
      decide⟩

end Bsd386.Net.Ppp
