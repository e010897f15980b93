import Bsd386.Net.Ppp.Layer

/-!
# The restart timer

How many restart timeouts of a control protocol are pending, over runs of any events.
-/

namespace Bsd386.Net.Ppp

open Lib List

/-- The states in which a request has been sent and not yet answered.
Source: none: what is claimed -/
def CpState.waits : CpState → Bool
  | .reqSent | .ackRcvd | .ackSent | .closing | .stopping => true
  | _ => false

/-- The restart timer is pending, once, exactly in the states that wait.
Source: none: what is claimed -/
def Timed (fs : Cp) : Prop := fs.pending = if fs.state.waits then 1 else 0

instance (fs : Cp) : Decidable (Timed fs) := inferInstanceAs (Decidable (_ = _))

/-! ## What each part does to the timer -/

namespace Cp

section fields

variable (k : Conf) (fs : Cp)

@[simp] theorem pending_sendout (room : Bool) (m : Option Packet) :
    (sendout room m fs).pending = fs.pending := by
  unfold sendout
  split
  · rfl
  · split <;> rfl

@[simp] theorem pending_creq (mbuf room : Bool) :
    (creq mbuf room fs).pending = fs.pending + 1 := by
  simp [creq, timeout]

@[simp] theorem pending_terminate (room : Bool) :
    (terminate k room fs).pending = k.untimeout fs.pending + 1 := by
  simp [terminate, timeout, untimeout, newstate]

end fields

end Cp

/-! ## One event -/

/-- The events in which the timer is started and stopped with the state:

* a Configure-Request is answered in `CP_STOPPED`, answered or the link is closed in `CP_OPENED`, and
  is not acknowledged in `CP_ACKRCVD`;
* a Configure-Ack that counts does not arrive in `CP_REQSENT`, `CP_CLOSING` or `CP_STOPPING`, nor a
  Configure-Nak or Configure-Reject in the latter two;
* a Configure-Nak does not make `ft_optnak` close the protocol;
* no Terminate-Request arrives in `CP_OPENED`, and no Terminate-Ack there or while negotiating;
* the lower level does not come up while the protocol waits. -/
def RestartOk (fs : Cp) (e : Event × Supply) : Prop :=
  match e.1 with
  | .packet (.confReq _ opts) =>
    match fs.state with
    | .stopped => Answered e.2 opts
    | .opened => Answered e.2 opts ∨ Cp.parseOpts ⟨false, false, false⟩ opts = none
    | .ackRcvd => ¬Acked e.2 opts
    | _ => True
  | .packet (.confAck id) =>
    id = fs.id → fs.state ≠ .reqSent ∧ fs.state ≠ .closing ∧ fs.state ≠ .stopping
  | .packet (.confNak id closes) =>
    id = fs.id → fs.state ≠ .closing ∧ fs.state ≠ .stopping ∧
      (fs.state.waits = true ∨ fs.state = .opened → true ∉ closes)
  | .packet (.confRej id) => id = fs.id → fs.state ≠ .closing ∧ fs.state ≠ .stopping
  | .packet (.termReq _) => fs.state ≠ .opened
  | .packet (.termAck _) =>
    fs.state ≠ .opened ∧ fs.state ≠ .reqSent ∧ fs.state ≠ .ackRcvd ∧ fs.state ≠ .ackSent
  | .up => fs.state.waits = false
  | _ => True

section step

variable {k : Conf} {sup : Supply} {fs : Cp}

theorem timed_answer_iff (hs : fs.state = .stopped ∨ fs.state = .opened) (hp : fs.pending = 1)
    (id : BitVec 8) (opts : List (OptRes × Bool)) :
    Timed (fs.answer k sup id opts) ↔ Answered sup opts ∨
      (fs.state = .opened ∧ Cp.parseOpts ⟨false, false, false⟩ opts = none) := by
  have hack : fs.state ≠ .ackRcvd := by
    rcases hs with hs | hs
    all_goals simp [hs]
  rcases answer_cases k sup id opts fs with
    ⟨hparse, heq⟩ | ⟨hans, hparse, heq⟩ | ⟨hans, -, m, -, heq⟩ | ⟨hans, -, heq⟩
  · rw [heq]
    rcases hs with hs | hs
    · simp [Timed, Answered, hparse, Cp.cpClose, hs, Cp.newstate, hp, CpState.waits]
    · simp [Timed, Answered, hparse, Cp.cpClose, hs, Cp.hook, hp, k.untimeout_one, CpState.waits]
  · rw [heq]
    refine iff_of_false ?_ fun h => h.elim hans fun h' => hparse h'.2
    rcases hs with hs | hs
    all_goals
      rw [Timed, hp, hs]
      decide
  · rw [heq, if_pos hack]
    exact iff_of_true (by simp [Timed, hp, Cp.newstate, CpState.waits]) (.inl hans)
  · rw [heq, if_neg (by simpa using hack)]
    exact iff_of_true (by simp [Timed, hp, Cp.newstate, CpState.waits]) (.inl hans)

theorem timed_answer_waits_iff
    (hs : fs.state = .reqSent ∨ fs.state = .ackRcvd ∨ fs.state = .ackSent) (hp : fs.pending = 1)
    (id : BitVec 8) (opts : List (OptRes × Bool)) :
    Timed (fs.answer k sup id opts) ↔ (fs.state = .ackRcvd → ¬Acked sup opts) := by
  rcases answer_cases k sup id opts fs with
    ⟨hparse, heq⟩ | ⟨hans, -, heq⟩ | ⟨-, hack, m, -, heq⟩ | ⟨-, hack, heq⟩
  · rw [heq]
    refine iff_of_true ?_ fun _ => by simp [Acked, hparse]
    rcases hs with hs | hs | hs
    all_goals simp [Timed, Cp.cpClose, hs, hp, k.untimeout_one, CpState.waits]
  · rw [heq]
    refine iff_of_true ?_ fun _ hack => hans hack.answered
    rcases hs with hs | hs | hs
    all_goals
      rw [Timed, hp, hs]
      rfl
  · rw [heq]
    refine iff_of_true ?_ fun _ => hack
    by_cases hrcvd : fs.state = .ackRcvd
    · simp [Timed, hrcvd, hp, CpState.waits]
    · simp [Timed, hrcvd, hp, Cp.newstate, CpState.waits]
  · rw [heq]
    by_cases hrcvd : fs.state = .ackRcvd
    · refine iff_of_false ?_ fun h => h hrcvd hack
      simp [Timed, hrcvd, hp, Cp.newstate, Cp.hook, CpState.waits]
    · refine iff_of_true ?_ fun h => absurd h hrcvd
      simp [Timed, hrcvd, hp, Cp.newstate, CpState.waits]

theorem closes_none {room : Bool} {closes : List Bool} (hclose : true ∉ closes) :
    closes.foldl (fun fs close => if close then fs.cpClose k room else fs) fs = fs := by
  induction closes generalizing fs with
  | nil => rfl
  | cons close closes ih =>
    obtain ⟨hhead, htail⟩ := not_or.mp (fun h => hclose (mem_cons.mpr h))
    rw [foldl_cons, if_neg (fun heq => hhead heq.symm)]
    exact ih htail

theorem closes_of_closing {room : Bool} (hs : fs.state = .closing) (closes : List Bool) :
    closes.foldl (fun fs close => if close then fs.cpClose k room else fs) fs = fs := by
  induction closes with
  | nil => rfl
  | cons close closes ih =>
    rw [foldl_cons]
    have hsame : (if close then fs.cpClose k room else fs) = fs := by
      split
      · simp [Cp.cpClose, hs]
      · rfl
    rw [hsame, ih]

theorem closes_closing (k : Conf) (room : Bool) (hs : fs.state = .reqSent ∨ fs.state = .ackSent)
    (hp : fs.pending = 0) {closes : List Bool} (hclose : true ∈ closes) :
    (closes.foldl (fun fs close => if close then fs.cpClose k room else fs) fs).state = .closing ∧
      (closes.foldl (fun fs close => if close then fs.cpClose k room else fs) fs).pending = 1 := by
  induction closes with
  | nil => exact absurd hclose not_mem_nil
  | cons close closes ih =>
    rw [foldl_cons]
    cases close with
    | false =>
      rw [if_neg (by simp)]
      exact ih (by simpa using hclose)
    | true =>
      rw [if_pos rfl]
      have hterm : fs.cpClose k room = fs.terminate k room := by
        rcases hs with hs | hs
        all_goals simp [Cp.cpClose, hs]
      rw [hterm, closes_of_closing (Cp.state_terminate k fs room), Cp.state_terminate,
        Cp.pending_terminate, hp, k.untimeout_zero]
      exact ⟨rfl, rfl⟩

variable (h : Timed fs)
include h

section

variable (hup : ¬(fs.state = .initial ∨ fs.state = .starting)) (id : BitVec 8)
include hup id

theorem timed_confReq_iff (opts : List (OptRes × Bool)) :
    Timed (fs.confReq k sup id opts) ↔ RestartOk fs (.packet (.confReq id opts), sup) := by
  rw [Timed] at h
  cases hs : fs.state with
  | initial => exact absurd (.inl hs) hup
  | starting => exact absurd (.inr hs) hup
  | closing | stopping => simpa [Timed, Cp.confReq, RestartOk, hs] using h
  | closed => simpa [Timed, Cp.confReq, RestartOk, hs] using h
  | stopped =>
    rw [hs] at h
    simp only [Cp.confReq, RestartOk, hs]
    rw [timed_answer_iff (.inl (by simp [Cp.resync, Cp.hook]))
      (by simp [Cp.resync, Cp.hook, h, CpState.waits])]
    simp [Cp.resync, Cp.hook]
  | opened =>
    rw [hs] at h
    simp only [Cp.confReq, RestartOk, hs]
    rw [timed_answer_iff (.inr (by simp [Cp.resync, Cp.hook, hs]))
      (by simp [Cp.resync, Cp.hook, h, CpState.waits])]
    simp [Cp.resync, Cp.hook, hs]
  | reqSent | ackSent | ackRcvd =>
    rw [hs] at h
    simp only [Cp.confReq, RestartOk, hs]
    rw [timed_answer_waits_iff (by simp [hs]) (by simp [h, CpState.waits])]
    simp [hs]

theorem timed_confAck_iff :
    Timed (fs.confAck k sup id) ↔ RestartOk fs (.packet (.confAck id), sup) := by
  unfold Cp.confAck
  by_cases hid : id = fs.id
  · rw [if_neg (not_not.mpr hid)]
    rw [Timed] at h
    cases hs : fs.state
    case initial => exact absurd (.inl hs) hup
    case starting => exact absurd (.inr hs) hup
    all_goals
      rw [hs] at h
      simp [Timed, RestartOk, hid, Cp.untimeout, Cp.newstate, Cp.hook, hs, h, CpState.waits,
        k.untimeout_zero, k.untimeout_one]
  · rw [if_pos hid]
    exact iff_of_true h fun heq => absurd heq hid

theorem timed_confNak_iff (closes : List Bool) :
    Timed (fs.confNak k sup id closes) ↔
      RestartOk fs (.packet (.confNak id closes), sup) := by
  have hretry : ∀ fs' : Cp, fs'.state = .reqSent ∨ fs'.state = .ackSent → fs'.pending = 0 →
      (Timed (fs'.retry k sup closes) ↔ true ∉ closes) := by
    intro fs' hs' hp'
    rw [Timed, Cp.retry, Cp.pending_creq, Cp.state_creq]
    by_cases hclose : true ∈ closes
    · obtain ⟨hstate, hpending⟩ := closes_closing k sup.closeRoom hs' hp' hclose
      rw [hstate, hpending]
      exact iff_of_false (by decide) (not_not.mpr hclose)
    rw [closes_none hclose, hp']
    refine iff_of_true ?_ hclose
    rcases hs' with hs' | hs'
    all_goals
      rw [hs']
      rfl
  unfold Cp.confNak
  by_cases hid : id = fs.id
  · rw [if_neg (not_not.mpr hid)]
    rw [Timed] at h
    cases hs : fs.state with
    | initial => exact absurd (.inl hs) hup
    | starting => exact absurd (.inr hs) hup
    | closing | stopping | closed | stopped =>
      rw [hs] at h
      simp [Timed, RestartOk, hid, Cp.untimeout, hs, h, CpState.waits, k.untimeout_zero,
        k.untimeout_one]
    | reqSent | ackSent | ackRcvd | opened =>
      rw [hs] at h
      simp only [Cp.untimeout, hs]
      rw [hretry _ (by simp [Cp.newstate]) (by
        simp [Cp.newstate, Cp.hook, h, CpState.waits, k.untimeout_zero, k.untimeout_one])]
      simp [RestartOk, hid, hs, CpState.waits]
  · rw [if_pos hid]
    exact iff_of_true h fun heq => absurd heq hid

end

theorem timed_termReq_iff (id : BitVec 8) : Timed (fs.termReq sup id) ↔ fs.state ≠ .opened := by
  rw [Timed] at h
  cases hs : fs.state
  all_goals
    rw [hs] at h
    simp [Timed, Cp.termReq, Cp.newstate, Cp.hook, hs, h, CpState.waits]

theorem timed_termAck_iff (id : BitVec 8) :
    Timed (fs.termAck k sup) ↔ RestartOk fs (.packet (.termAck id), sup) := by
  rw [Timed] at h
  cases hs : fs.state
  all_goals
    rw [hs] at h
    simp [Timed, RestartOk, Cp.termAck, Cp.untimeout, Cp.newstate, Cp.hook, hs, h, CpState.waits,
      k.untimeout_zero, k.untimeout_one]

theorem timed_cpUp_iff : Timed (fs.cpUp k sup) ↔ fs.state.waits = false := by
  rw [Timed] at h
  cases hw : fs.state.waits
  all_goals
    rw [hw] at h
    simp [Timed, Cp.cpUp, Cp.newstate, h, CpState.waits]

theorem timed_cpDown : Timed (fs.cpDown k) := by
  rw [Timed] at h
  cases hs : fs.state
  all_goals
    rw [hs] at h
    simp [Timed, Cp.cpDown, Cp.untimeout, Cp.newstate, Cp.hook, hs, h, CpState.waits,
      k.untimeout_zero, k.untimeout_one]

theorem timed_cpClose (room : Bool) : Timed (fs.cpClose k room) := by
  rw [Timed] at h
  cases hs : fs.state
  all_goals
    rw [hs] at h
    simp [Timed, Cp.cpClose, Cp.newstate, Cp.hook, hs, h, CpState.waits, k.untimeout_zero,
      k.untimeout_one]

theorem timed_timeout (hp : fs.pending ≠ 0) :
    Timed (Cp.cpTimeout sup { fs with pending := fs.pending - 1 }) := by
  rw [Timed] at h
  by_cases hrc : fs.rc = 1
  all_goals
    cases hs : fs.state
    all_goals
      rw [hs] at h
      first
        | exact absurd h hp
        | simp [Timed, Cp.cpTimeout, Cp.newstate, Cp.timeout, Cp.hook, hrc, h, CpState.waits]

/-- **One event** keeps the timer pending exactly in the states that wait, exactly when it is started
and stopped with the state. -/
theorem timed_step_iff (e : Event × Supply) : Timed (step k fs e) ↔ RestartOk fs e := by
  obtain ⟨e, sup⟩ := e
  cases e with
  | packet p =>
    by_cases hdown : fs.state = .initial ∨ fs.state = .starting
    · have hok : RestartOk fs (.packet p, sup) := by
        rcases hdown with hs | hs
        all_goals cases p <;> simp [RestartOk, hs, CpState.waits]
      simpa [step, cpIn, hdown, hok] using h
    rw [step]
    dsimp only
    unfold cpIn
    rw [if_neg hdown]
    cases p with
    | confReq id opts => exact timed_confReq_iff h hdown id opts
    | confAck id => exact timed_confAck_iff h hdown id
    | confNak id closes => exact timed_confNak_iff h hdown id closes
    | confRej id =>
      refine (timed_confNak_iff h hdown id []).trans ?_
      simp [RestartOk]
    | termReq id => exact timed_termReq_iff h id
    | termAck id => exact timed_termAck_iff h id
    | other =>
      rw [Timed, Cp.pending_sendout, Cp.state_sendout]
      exact iff_of_true h trivial
  | timeout =>
    rw [step]
    dsimp only
    split
    · exact iff_of_true h trivial
    · next hp => exact iff_of_true (timed_timeout h hp) trivial
  | up => exact timed_cpUp_iff h
  | down => exact iff_of_true (timed_cpDown h) trivial
  | close => exact iff_of_true (timed_cpClose h _) trivial

end step

/-! ## Runs -/

/-- **The restart timer**: over a run of any events, after every one it is pending, once, exactly in
the states that wait for an answer, exactly when each event, in the state it finds, meets
`RestartOk`. Kind: C -/
theorem timed_iff (k : Conf) (id : BitVec 8) (rc : ℕ) (es : List (Event × Supply)) :
    (∀ pre post, es = pre ++ post → Timed (pre.foldl (step k) (start id rc))) ↔
      ∀ pre e post, es = pre ++ e :: post → RestartOk (pre.foldl (step k) (start id rc)) e :=
  have hstart : Timed (start id rc) := rfl
  Transition.foldl_forall_iff (P := Timed) (fun _ e h => timed_step_iff h e) hstart es

/-- A Configure-Ack in `CP_REQSENT`: the protocol waits for a Configure-Request, and nothing is
pending.
Source: ppp_cp_in. Kind: C -/
theorem not_timed_confAck :
    ¬Timed ([Event.up, .packet (.confAck 1)].foldl
      (fun fs e => step pppDefaults fs (e, .all)) (start 0 0)) := by
  decide

/-! ## A peer that does not answer -/

theorem length_out_sendout (room : Bool) (m : Option Packet) (fs : Cp) :
    (Cp.sendout room m fs).out.length ≤ fs.out.length + 1 ∧ (Cp.sendout room m fs).rc = fs.rc := by
  cases m
  all_goals cases room <;> simp [Cp.sendout]

theorem cpTimeout_again (sup : Supply) {fs : Cp} (hw : fs.state.waits = true) (hp : fs.pending = 0)
    (hrc : fs.rc ≠ 1) :
    Timed (fs.cpTimeout sup) ∧ (fs.cpTimeout sup).state.waits = true ∧
      ((fs.cpTimeout sup).state = .closing ↔ fs.state = .closing) ∧ (fs.cpTimeout sup).rc = fs.rc - 1 ∧
      (fs.cpTimeout sup).calls = fs.calls ∧ (fs.cpTimeout sup).out.length ≤ fs.out.length + 1 := by
  have hlen (m : Option Packet) (fs : Cp) := length_out_sendout sup.room m fs
  cases hs : fs.state
  all_goals
    rw [hs] at hw
    first
      | exact absurd hw Bool.false_ne_true
      | simp [Cp.cpTimeout, hrc, hs, Timed, hp, CpState.waits, Cp.newstate, Cp.timeout, hlen, Cp.creq]

end Bsd386.Net.Ppp
