import Bsd386.Lib.Transition
import Bsd386.Net.Ppp.Fsm

/-!
# Layer up, layer down

The calls of `ft_tlu` and `ft_tld` of a control protocol, over runs of any events. `signalled` reads
a sequence of calls: it fails when two calls of one kind follow each other.
-/

namespace Bsd386.Net.Ppp

open Lib Cp List

/-! ## Calls -/

/-- Read calls, from whether the protocol is up: whether it is up afterwards, or `none` when a call
of `ft_tlu` or `ft_tld` does not alternate with the one before.
Source: none: what is claimed -/
def signalled : Bool → List Hook → Option Bool
  | up, [] => some up
  | up, .tlu :: hs => if up then none else signalled true hs
  | up, .tld :: hs => if up then signalled false hs else none
  | up, .tlf :: hs => signalled up hs

theorem signalled_append (up : Bool) (hs hs' : List Hook) :
    signalled up (hs ++ hs') = (signalled up hs).bind fun up' => signalled up' hs' := by
  induction hs generalizing up with
  | nil => rfl
  | cons h hs ih =>
    cases h
    all_goals
      cases up
      all_goals simp [signalled, ih]

/-- The calls alternate, starting with `ft_tlu`, and the protocol has been signalled up and not down
exactly in `CP_OPENED`.
Source: none: what is claimed -/
def Layered (fs : Cp) : Prop := signalled false fs.calls = some (decide (fs.state = .opened))

instance (fs : Cp) : Decidable (Layered fs) := inferInstanceAs (Decidable (_ = _))

/-! ## What each part does to the state and the calls -/

namespace Cp

section fields

variable (k : Conf) (sup : Supply) (fs : Cp)

@[simp] theorem calls_sendout (room : Bool) (m : Option Packet) :
    (sendout room m fs).calls = fs.calls := by
  unfold sendout
  split
  · rfl
  · split <;> rfl

@[simp] theorem state_sendout (room : Bool) (m : Option Packet) :
    (sendout room m fs).state = fs.state := by
  unfold sendout
  split
  · rfl
  · split <;> rfl

@[simp] theorem calls_creq (mbuf room : Bool) : (creq mbuf room fs).calls = fs.calls := by
  simp [creq, timeout]

@[simp] theorem state_creq (mbuf room : Bool) : (creq mbuf room fs).state = fs.state := by
  simp [creq, timeout]

@[simp] theorem calls_terminate (room : Bool) : (terminate k room fs).calls = fs.calls := by
  simp [terminate, timeout, untimeout, newstate]

@[simp] theorem state_terminate (room : Bool) : (terminate k room fs).state = .closing := by
  simp [terminate, timeout, untimeout, newstate]

theorem calls_cpClose (room : Bool) :
    (cpClose k room fs).calls = fs.calls ++ (if fs.state = .opened then [.tld] else []) := by
  cases hs : fs.state
  all_goals simp [cpClose, hs, newstate, hook]

theorem state_cpClose_ne (room : Bool) : (cpClose k room fs).state ≠ .opened := by
  cases hs : fs.state
  all_goals simp [cpClose, hs, newstate]

end fields

end Cp

/-! ## One event -/

/-- The events in which the levels above are told what happens: in `CP_STOPPED` no Configure-Request
arrives; in `CP_OPENED` every Configure-Request is answered, no Terminate-Ack arrives, a restart
timeout is not the last one, and the lower level does not come up. -/
def LayerOk (fs : Cp) (e : Event × Supply) : Prop :=
  match fs.state, e.1 with
  | .stopped, .packet (.confReq _ _) => False
  | .opened, .packet (.confReq _ opts) => Answered e.2 opts
  | .opened, .packet (.termAck _) => False
  | .opened, .timeout => fs.pending = 0 ∨ fs.rc ≠ 1
  | .opened, .up => False
  | _, _ => True

theorem calls_answer (k : Conf) (sup : Supply) (id : BitVec 8) (opts : List (OptRes × Bool))
    (fs : Cp) : ∃ hs, (fs.answer k sup id opts).calls = fs.calls ++ hs := by
  rcases answer_cases k sup id opts fs with
    ⟨-, heq⟩ | ⟨-, -, heq⟩ | ⟨-, -, m, -, heq⟩ | ⟨-, -, heq⟩
  · rw [heq]
    exact ⟨_, calls_cpClose k fs _⟩
  · rw [heq]
    exact ⟨[], (append_nil _).symm⟩
  · refine ⟨[], ?_⟩
    rw [heq, calls_sendout, append_nil]
    split <;> rfl
  · rw [heq]
    split
    · exact ⟨[.tlu], by simp [hook, newstate]⟩
    · exact ⟨[], by simp [newstate]⟩

theorem layered_answer_opened {k : Conf} {sup : Supply} {fs : Cp} (hs : fs.state = .opened)
    (hdown : signalled false fs.calls = some false) (id : BitVec 8)
    (opts : List (OptRes × Bool)) :
    Layered (fs.answer k sup id opts) ↔ Answered sup opts := by
  rcases answer_cases k sup id opts fs with
    ⟨hparse, heq⟩ | ⟨hans, -, heq⟩ | ⟨hans, -, m, -, heq⟩ | ⟨hans, -, heq⟩
  · rw [heq]
    refine iff_of_false ?_ (by simp [Answered, hparse])
    rw [Layered, calls_cpClose, if_pos hs, signalled_append, hdown]
    simp [signalled]
  · rw [heq]
    refine iff_of_false ?_ hans
    rw [Layered, hdown, hs]
    decide
  · rw [heq]
    exact iff_of_true (by simp [Layered, hs, hdown, newstate]) hans
  · rw [heq]
    exact iff_of_true (by simp [Layered, hs, hdown, newstate]) hans

theorem layered_closes (k : Conf) (room : Bool) {fs : Cp} (hs : fs.state ≠ .opened)
    (closes : List Bool) :
    (closes.foldl (fun fs close => if close then fs.cpClose k room else fs) fs).calls = fs.calls ∧
      (closes.foldl (fun fs close => if close then fs.cpClose k room else fs) fs).state ≠
        .opened := by
  induction closes generalizing fs with
  | nil => exact ⟨rfl, hs⟩
  | cons close closes ih =>
    rw [foldl_cons]
    split
    · obtain ⟨hcalls, hstate⟩ := ih (state_cpClose_ne k fs room)
      rw [calls_cpClose, if_neg hs, append_nil] at hcalls
      exact ⟨hcalls, hstate⟩
    · exact ih hs

section step

variable {k : Conf} {sup : Supply} {fs : Cp} (h : Layered fs)
include h

theorem layered_answer (id : BitVec 8) (opts : List (OptRes × Bool)) (hs : fs.state ≠ .opened) :
    Layered (fs.answer k sup id opts) := by
  have hdown : signalled false fs.calls = some false := by
    rw [h, decide_eq_false hs]
  rcases answer_cases k sup id opts fs with
    ⟨-, heq⟩ | ⟨-, -, heq⟩ | ⟨-, -, m, -, heq⟩ | ⟨-, -, heq⟩
  · rw [heq, Layered, calls_cpClose, if_neg hs, append_nil, hdown,
      decide_eq_false (state_cpClose_ne k fs _)]
  · rw [heq]
    exact h
  · rw [heq]
    by_cases hack : fs.state = .ackRcvd
    · simp [Layered, hack, hdown]
    · simp [Layered, hack, hdown, newstate]
  · rw [heq]
    by_cases hack : fs.state = .ackRcvd
    · simp [Layered, hack, hdown, newstate, hook, signalled_append, signalled]
    · simp [Layered, hack, hdown, newstate]

theorem layered_confReq_iff (id : BitVec 8) (opts : List (OptRes × Bool)) :
    Layered (fs.confReq k sup id opts) ↔
      fs.state ≠ .stopped ∧ (fs.state = .opened → Answered sup opts) := by
  cases hs : fs.state with
  | stopped =>
    refine iff_of_false ?_ (by simp)
    have hconf : fs.confReq k sup id opts =
        answer k sup id opts (resync sup { fs with rc := k.maxconf }) := by
      simp [confReq, hs]
    obtain ⟨hs', hcalls⟩ := calls_answer k sup id opts (resync sup { fs with rc := k.maxconf })
    rw [hconf, Layered, hcalls, signalled_append]
    have hbad : signalled false (resync sup { fs with rc := k.maxconf }).calls = none := by
      rw [Layered, hs] at h
      simp [resync, hook, signalled_append, h, signalled]
    rw [hbad]
    simp
  | opened =>
    rw [Layered, hs] at h
    simp only [confReq, hs]
    rw [layered_answer_opened (by simp [resync, hook, hs])
      (by simp [resync, hook, signalled_append, h, signalled])]
    simp
  | closing | stopping => simpa [confReq, hs] using h
  | closed =>
    rw [Layered, hs] at h
    simp [confReq, hs, Layered, h]
  | _ =>
    refine iff_of_true ?_ (by simp)
    simp only [confReq, hs]
    exact layered_answer h id opts (by simp [hs])

theorem layered_confAck (id : BitVec 8) : Layered (fs.confAck k sup id) := by
  unfold confAck
  split
  · exact h
  rw [Layered] at h
  cases hs : fs.state
  all_goals
    rw [hs] at h
    simp [Layered, untimeout, newstate, hook, hs, h, signalled_append, signalled]

theorem layered_confNak (id : BitVec 8) (closes : List Bool) :
    Layered (fs.confNak k sup id closes) := by
  have hretry : ∀ fs' : Cp, fs'.state ≠ .opened → signalled false fs'.calls = some false →
      Layered (fs'.retry k sup closes) := by
    intro fs' hs' hdown
    obtain ⟨hcalls, hstate⟩ := layered_closes k sup.closeRoom hs' closes
    rw [Layered, retry, calls_creq, state_creq, hcalls, hdown, decide_eq_false hstate]
  unfold confNak
  split
  · exact h
  rw [Layered] at h
  cases hs : fs.state with
  | reqSent | ackSent | ackRcvd =>
    rw [hs] at h
    simp only [untimeout, hs]
    exact hretry _ (by simp [newstate]) (by simpa [newstate] using h)
  | opened =>
    rw [hs] at h
    simp only [untimeout, hs]
    exact hretry _ (by simp [newstate])
      (by simp [newstate, hook, signalled_append, h, signalled])
  | _ =>
    rw [hs] at h
    simp [Layered, untimeout, hs, h]

theorem layered_termReq (id : BitVec 8) : Layered (fs.termReq sup id) := by
  rw [Layered] at h
  cases hs : fs.state
  all_goals
    rw [hs] at h
    simp [Layered, termReq, newstate, hook, hs, h, signalled_append, signalled]

theorem layered_termAck_iff : Layered (fs.termAck k sup) ↔ fs.state ≠ .opened := by
  rw [Layered] at h
  cases hs : fs.state
  all_goals
    rw [hs] at h
    simp [Layered, termAck, untimeout, newstate, hook, hs, h, signalled_append,
      signalled]

theorem layered_cpTimeout_iff : Layered (fs.cpTimeout sup) ↔ (fs.state = .opened → fs.rc ≠ 1) := by
  rw [Layered] at h
  by_cases hrc : fs.rc = 1
  all_goals
    cases hs : fs.state
    all_goals
      rw [hs] at h
      simp [Layered, cpTimeout, hrc, timeout, newstate, hook, hs, h, signalled_append,
        signalled]

theorem layered_cpUp_iff : Layered (fs.cpUp k sup) ↔ fs.state ≠ .opened := by
  rw [Layered] at h
  by_cases hs : fs.state = .opened
  · simp [Layered, cpUp, newstate, h, hs]
  · simp [Layered, cpUp, newstate, h, hs]

theorem layered_cpDown : Layered (fs.cpDown k) := by
  rw [Layered] at h
  cases hs : fs.state
  all_goals
    rw [hs] at h
    simp [Layered, cpDown, untimeout, newstate, hook, hs, h, signalled_append,
      signalled]

theorem layered_cpClose (room : Bool) : Layered (fs.cpClose k room) := by
  rw [Layered, calls_cpClose, decide_eq_false (state_cpClose_ne k fs room), signalled_append,
    h]
  by_cases hs : fs.state = .opened
  · simp [hs, signalled]
  · simp [hs, signalled]

/-- **One event** keeps the calls alternating, and the protocol up exactly in `CP_OPENED`, exactly
when the levels above are told what happens. -/
theorem layered_step_iff (e : Event × Supply) : Layered (step k fs e) ↔ LayerOk fs e := by
  obtain ⟨e, sup⟩ := e
  cases e with
  | packet p =>
    by_cases hdown : fs.state = .initial ∨ fs.state = .starting
    · have hok : LayerOk fs (.packet p, sup) := by
        rcases hdown with hs | hs
        all_goals simp [LayerOk, hs]
      simpa [step, cpIn, hdown, hok] using h
    rw [step]
    dsimp only
    unfold cpIn
    rw [if_neg hdown]
    cases p with
    | confReq id opts =>
      rw [layered_confReq_iff h]
      cases hs : fs.state
      all_goals simp [LayerOk, hs]
    | confAck id =>
      refine iff_of_true (layered_confAck h id) ?_
      cases hs : fs.state
      all_goals simp [LayerOk, hs]
    | confNak id closes =>
      refine iff_of_true (layered_confNak h id closes) ?_
      cases hs : fs.state
      all_goals simp [LayerOk, hs]
    | confRej id =>
      refine iff_of_true (layered_confNak h id []) ?_
      cases hs : fs.state
      all_goals simp [LayerOk, hs]
    | termReq id =>
      refine iff_of_true (layered_termReq h id) ?_
      cases hs : fs.state
      all_goals simp [LayerOk, hs]
    | termAck id =>
      rw [layered_termAck_iff h]
      cases hs : fs.state
      all_goals simp [LayerOk, hs]
    | other =>
      refine iff_of_true ?_ ?_
      · rw [Layered, calls_sendout, state_sendout]
        exact h
      · cases hs : fs.state
        all_goals simp [LayerOk, hs]
  | timeout =>
    rw [step]
    dsimp only
    split
    · next hpending =>
        refine iff_of_true h ?_
        cases hs : fs.state
        all_goals simp [LayerOk, hs, hpending]
    next hpending =>
      have h' : Layered { fs with pending := fs.pending - 1 } := h
      rw [layered_cpTimeout_iff h']
      cases hs : fs.state
      all_goals simp [LayerOk, hs, hpending]
  | up =>
    rw [step]
    rw [layered_cpUp_iff h]
    cases hs : fs.state
    all_goals simp [LayerOk, hs]
  | down =>
    refine iff_of_true (layered_cpDown h) ?_
    cases hs : fs.state
    all_goals simp [LayerOk, hs]
  | close =>
    refine iff_of_true (layered_cpClose h _) ?_
    cases hs : fs.state
    all_goals simp [LayerOk, hs]

end step

/-! ## Runs -/

/-- **Layer up, layer down**: over a run of any events, after every one the calls alternate and the
protocol is up exactly in `CP_OPENED`, exactly when each event, in the state it finds, meets
`LayerOk`. Kind: C -/
theorem layered_iff (k : Conf) (id : BitVec 8) (rc : ℕ) (es : List (Event × Supply)) :
    (∀ pre post, es = pre ++ post → Layered (pre.foldl (step k) (start id rc))) ↔
      ∀ pre e post, es = pre ++ e :: post → LayerOk (pre.foldl (step k) (start id rc)) e :=
  have hstart : Layered (start id rc) := rfl
  Transition.foldl_forall_iff (P := Layered) (fun _ e h => layered_step_iff h e) hstart es

/-- A Terminate-Ack in `CP_OPENED`: the levels above are told that the protocol is down, and it stays
in that state.
Source: ppp_cp_in. Kind: C -/
theorem not_layered_termAck :
    ¬Layered
      ([Event.up, .packet (.confReq 1 []), .packet (.confAck 1), .packet (.termAck 1)].foldl
        (fun fs e => step pppDefaults fs (e, .all)) (start 0 0)) := by
  decide

end Bsd386.Net.Ppp
