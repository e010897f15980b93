import Bsd386.Net.Ppp.Options
import Mathlib.Data.List.Flatten
import Mathlib.Data.List.GetD

/-!
# PPP control protocols: the reply to a Configure-Request

`ppp_cp_in` (`sys/net/ppp_fsm.c`) collects the options that `ft_opt` naked or rejected in one chain of
mbufs, not knowing yet which reply it will be. The field `off` of an entry of the chain is not in the
source: it tells which option of the request it answers.

**Result** (`reply_eq_faithful_iff`): when all options are well formed the reply is the right one exactly
when no option is naked after a rejected one, no two are rejected if one is naked, and a request that is
acknowledged is as long as it declares.
-/

namespace Bsd386.Net.Ppp

open List

/-! ## The chain -/

/-- What `ft_opt` gives: an option is rewritten only when it is naked; `other` is none of the values. -/
inductive Verdict where
  | ok
  | rej
  | nak (opt : Opt)
  | fatal
  | other

/-- An option in the chain of mbufs. Source: ppp_addopt -/
structure Entry where
  off : ℕ
  bytes : List UInt8
deriving DecidableEq

/-- The bytes of an option. Source: ppp_addopt -/
def optBytes (opt : Opt) : List UInt8 := (range (poLen opt)).map opt

/-- Source: mbuf.h -/
def mlen : ℕ := 108

/-- The option goes to the last mbuf, of which `lead` bytes come before the data, or to a new one.
Source: ppp_addopt -/
def addLast (e : Entry) : ℕ → List (List Entry) → List (List Entry)
  | _, [] => [[e]]
  | lead, [m] =>
    if mlen ≤ (m.map fun e => e.bytes.length).sum + e.bytes.length + lead then [m, [e]]
    else [m ++ [e]]
  | _, m :: ms => m :: addLast e 0 ms

/-- Add an option to the list. The first mbuf has a packet header, and leaves some space for headers.
Source: ppp_addopt -/
def pppAddopt (m0 : List (List Entry)) (e : Entry) : List (List Entry) :=
  addLast e (8 + 8) (if m0 = [] then [[]] else m0)

/-- What the loop over a Configure-Request has: the state of the protocol, the counters and the chain.
`answers` are the verdicts so far, of which the source keeps only what the others tell.
Source: ppp_cp_in -/
structure Building (σ : Type) where
  pp : σ
  reject : ℕ
  nak : ℕ
  m0 : List (List Entry)
  answers : List (Entry × Verdict)

variable {σ : Type}

/-- The counters and the chain after a verdict. Source: ppp_cp_in -/
def Building.answer (b : Building σ) (e : Entry) (v : Verdict) : Building σ :=
  let b := { b with answers := b.answers ++ [(e, v)] }
  match v with
  | .rej => { b with
      reject := b.reject + 1
      m0 := pppAddopt (if b.nak ≠ 0 then [] else b.m0) e }
  | .nak opt => { b with nak := b.nak + 1, m0 := pppAddopt b.m0 ⟨e.off, optBytes opt⟩ }
  | .other => { b with m0 := pppAddopt b.m0 e }
  | _ => b

/-- The loop over the options of a Configure-Request. Source: ppp_cp_in -/
def confReq (ftOpt : σ → Opt → Verdict × σ) : Loop (Building σ) where
  long := some fun off b opt => b.answer ⟨off, optBytes opt⟩ .rej
  handle off b opt :=
    let r := ftOpt b.pp opt
    let b := { b with pp := r.2 }.answer ⟨off, optBytes opt⟩ r.1
    match r.1 with
    | .fatal => (false, b, opt)
    | .nak opt' => (true, b, opt')
    | _ => (true, b, opt)

/-! ## The reply -/

/-- Source: ppp_proto.h -/
inductive ReplyCode where
  | ack
  | nak
  | rej
deriving DecidableEq

/-- A packet of options: the request itself, or the chain.
Source: ppp_proto.h, struct ppp_cp_hdr -/
structure Reply where
  code : ReplyCode
  id : UInt8
  cpLength : ℕ
  data : List UInt8 ⊕ List Entry
deriving DecidableEq

/-- Prepend the header; the length is that of the mbufs. Source: ppp_cp_prepend -/
def cpPrepend (code : ReplyCode) (id : UInt8) (data : List UInt8 ⊕ List Entry) : Reply :=
  { code, id, data
    cpLength := 4 + data.elim List.length fun es => (es.map fun e => e.bytes.length).sum }

/-- Send Nak/Reject/Ack depending on circumstances. Source: ppp_cp_in -/
def confReply (pkt : List UInt8) (b : Building σ) : Reply :=
  if b.reject ≠ 0 then cpPrepend .rej (pkt.getD 1 0) (.inr b.m0.flatten)
  else if b.nak ≠ 0 then cpPrepend .nak (pkt.getD 1 0) (.inr b.m0.flatten)
  else cpPrepend .ack (pkt.getD 1 0) (.inl (pkt.drop 4))

def rejected (as : List (Entry × Verdict)) : List Entry :=
  as.filterMap fun a => match a.2 with
    | .rej => some a.1
    | _ => none

/-- The options naked, as they were rewritten. -/
def naked (as : List (Entry × Verdict)) : List Entry :=
  as.filterMap fun a => match a.2 with
    | .nak opt => some ⟨a.1.off, optBytes opt⟩
    | _ => none

/-- The right reply to a request of the options `os`. Source: none: what is claimed -/
def faithful (id : UInt8) (os : List (List UInt8)) (as : List (Entry × Verdict)) : Reply :=
  if rejected as ≠ [] then cpPrepend .rej id (.inr (rejected as))
  else if naked as ≠ [] then cpPrepend .nak id (.inr (naked as))
  else cpPrepend .ack id (.inl os.flatten)

/-- No option is naked after a rejected one, and no two are rejected if one is naked. -/
def Unmixed (as : List (Entry × Verdict)) : Prop :=
  (∀ n ∈ naked as, ∀ r ∈ rejected as, n.off < r.off) ∧ (naked as = [] ∨ (rejected as).length ≤ 1)

/-! ## What the chain has -/

theorem flatten_pppAddopt (m0 : List (List Entry)) (e : Entry) :
    (pppAddopt m0 e).flatten = m0.flatten ++ [e] := by
  have hadd : ∀ lead ms, (addLast e lead ms).flatten = ms.flatten ++ [e] := by
    intro lead ms
    fun_induction addLast e lead ms with
    | case1 => rfl
    | case2 => simp
    | case3 => simp
    | case4 lead m ms hne ih => simp [ih]
  rw [pppAddopt, hadd]
  split_ifs with h
  · rw [h]
    rfl
  · rfl

/-- What is known of the counters and the chain. The chain is right for a Nak if nothing is rejected, and for a
Reject exactly when the verdicts are not mixed.
Source: ppp_cp_in -/
structure Built (b : Building σ) : Prop where
  reject : b.reject = 0 ↔ rejected b.answers = []
  nak : b.nak = 0 ↔ naked b.answers = []
  of_rej : naked b.answers = [] → b.m0.flatten = rejected b.answers
  of_nak : rejected b.answers = [] → b.m0.flatten = naked b.answers
  iff : rejected b.answers ≠ [] → (b.m0.flatten = rejected b.answers ↔ Unmixed b.answers)

theorem exists_of_mem {as : List (Entry × Verdict)} {e : Entry} (h : e ∈ rejected as ∨ e ∈ naked as) :
    ∃ a ∈ as, a.1.off = e.off := by
  rcases h with h | h
  · obtain ⟨⟨e', v⟩, ha, heq⟩ := mem_filterMap.mp h
    cases v <;> cases heq
    exact ⟨_, ha, rfl⟩
  · obtain ⟨⟨e', v⟩, ha, heq⟩ := mem_filterMap.mp h
    cases v <;> cases heq
    exact ⟨_, ha, rfl⟩

theorem Built.answer {b : Building σ} (h : Built b) {e : Entry}
    (hoff : ∀ a ∈ b.answers, a.1.off < e.off) {v : Verdict} (hv : v ≠ .fatal ∧ v ≠ .other) :
    Built (b.answer e v) := by
  obtain ⟨hreject, hnak, hofrej, hofnak, hiff⟩ := h
  have hlt : ∀ x, x ∈ rejected b.answers ∨ x ∈ naked b.answers → x.off < e.off := by
    intro x hx
    obtain ⟨a, ha, heq⟩ := exists_of_mem hx
    exact heq ▸ hoff a ha
  have hr : rejected (b.answers ++ [(e, v)]) = rejected b.answers ++ rejected [(e, v)] :=
    filterMap_append
  have hn : naked (b.answers ++ [(e, v)]) = naked b.answers ++ naked [(e, v)] := filterMap_append
  cases v with
  | ok =>
    have hr' : rejected (b.answers ++ [(e, .ok)]) = rejected b.answers := hr.trans (append_nil _)
    have hn' : naked (b.answers ++ [(e, .ok)]) = naked b.answers := hn.trans (append_nil _)
    constructor <;> simpa [Building.answer, Unmixed, hr', hn']
  | rej =>
    have hr' : rejected (b.answers ++ [(e, .rej)]) = rejected b.answers ++ [e] := hr
    have hn' : naked (b.answers ++ [(e, .rej)]) = naked b.answers := hn.trans (append_nil _)
    have hm : (b.answer e .rej).m0.flatten =
        (if b.nak ≠ 0 then [] else b.m0).flatten ++ [e] := flatten_pppAddopt _ _
    constructor
    · simp [Building.answer, hr']
    · simpa [Building.answer, hn'] using hnak
    · intro hnil
      have hnil : naked b.answers = [] := hn' ▸ hnil
      rw [hm, if_neg (not_not.mpr (hnak.mpr hnil)), hofrej hnil]
      exact hr'.symm
    · intro hnil
      exact absurd (hr' ▸ hnil) (by simp)
    · intro _
      change _ = rejected (b.answers ++ [(e, .rej)]) ↔ Unmixed (b.answers ++ [(e, .rej)])
      rw [hm, Unmixed, hr', hn']
      by_cases hnil : naked b.answers = []
      · rw [if_neg (not_not.mpr (hnak.mpr hnil)), hofrej hnil]
        simp [hnil]
      -- the chain is thrown away
      rw [if_pos fun h0 => hnil (hnak.mp h0)]
      have hbefore : ∀ n ∈ naked b.answers, n.off < e.off := fun n hmem => hlt n (.inr hmem)
      constructor
      · intro heq
        have hempty : rejected b.answers = [] := by
          have := congrArg length heq
          simpa using this
        simpa [hempty] using hbefore
      · rintro ⟨-, hone⟩
        have hempty : rejected b.answers = [] := by simpa [hnil] using hone
        rw [hempty]
        rfl
  | nak opt =>
    have hr' : rejected (b.answers ++ [(e, .nak opt)]) = rejected b.answers := hr.trans (append_nil _)
    have hn' : naked (b.answers ++ [(e, .nak opt)]) = naked b.answers ++ [⟨e.off, optBytes opt⟩] := hn
    have hm : (b.answer e (.nak opt)).m0.flatten = b.m0.flatten ++ [⟨e.off, optBytes opt⟩] :=
      flatten_pppAddopt _ _
    constructor
    · simpa [Building.answer, hr'] using hreject
    · simp [Building.answer, hn']
    · intro hnil
      exact absurd (hn' ▸ hnil) (by simp)
    · intro hnil
      have hnil : rejected b.answers = [] := hr' ▸ hnil
      rw [hm, hofnak hnil]
      exact hn'.symm
    · intro hne
      have hne : rejected b.answers ≠ [] := hr' ▸ hne
      change _ = rejected (b.answers ++ [(e, .nak opt)]) ↔ Unmixed (b.answers ++ [(e, .nak opt)])
      rw [hm, Unmixed, hr', hn']
      obtain ⟨r, hmem⟩ := exists_mem_of_ne_nil _ hne
      refine iff_of_false (fun heq => ?_) fun hun => ?_
      · have hlast : (⟨e.off, optBytes opt⟩ : Entry) ∈ rejected b.answers := heq ▸ by simp
        exact Nat.lt_irrefl _ (hlt ⟨e.off, optBytes opt⟩ (.inl hlast))
      · have hbefore := hun.1 ⟨e.off, optBytes opt⟩ (by simp) r hmem
        exact Nat.lt_asymm hbefore (hlt r (.inl hmem))
  | fatal => exact absurd rfl hv.1
  | other => exact absurd rfl hv.2

/-! ## The loop over a request -/

/-- An option that `ft_opt` is asked about. Source: ppp_cp_in -/
def WellFormed (o : List UInt8) : Prop :=
  2 ≤ o.length ∧ o.length ≤ lcpOptMaxsize ∧ (o.getD 1 0).toNat = o.length

/-- The options of a request with their offsets. -/
def entries : ℕ → List (List UInt8) → List Entry
  | _, [] => []
  | off, o :: os => ⟨off, o⟩ :: entries (off + o.length) os

theorem copyOption_spec {m : ℕ → UInt8} {l off : ℕ} {o : List UInt8} (ho : WellFormed o)
    (hm : ∀ i < o.length, m (off + i) = o.getD i 0) (hl : off + o.length ≤ l) (opt : Opt) :
    poLen (copyOption m l off opt) = o.length ∧ optBytes (copyOption m l off opt) = o := by
  obtain ⟨htwo, hmax, hlen⟩ := ho
  have hcopy : ∀ i < o.length, copyOption m l off opt i = o.getD i 0 := by
    intro i hi
    rw [copyOption, if_pos (by split_ifs <;> omega), hm i hi]
  have hpo : poLen (copyOption m l off opt) = o.length := by
    rw [poLen, hcopy 1 (by omega), hlen]
  refine ⟨hpo, ext_getElem (by simp [optBytes, hpo]) fun i _ hi => ?_⟩
  simp [optBytes, hcopy i hi, getElem?_eq_getElem hi]

section loop

variable {ftOpt : σ → Opt → Verdict × σ} {m : ℕ → UInt8} {l : ℕ} {w w0 : Walk (Building σ)}

theorem optionTurn_confReq {o : List UInt8} (ho : WellFormed o)
    (hm : ∀ i < o.length, m (w.off + i) = o.getD i 0) (hl : w.off + o.length ≤ l)
    {v : Verdict} (hv : (ftOpt w.st.pp (copyOption m l w.off w.opt)).1 = v) (hgo : v ≠ .fatal) :
    (optionTurn (confReq ftOpt) m l w).1 = true ∧
      (optionTurn (confReq ftOpt) m l w).2.off = w.off + o.length ∧
        ∃ pp, (optionTurn (confReq ftOpt) m l w).2.st =
          { w.st with pp }.answer ⟨w.off, o⟩ v := by
  obtain ⟨hlen, hbytes⟩ := copyOption_spec ho hm hl w.opt
  have hshort : ¬ lcpOptMaxsize < o.length := Nat.not_lt.mpr ho.2.1
  simp only [optionTurn, confReq, hlen, if_neg hshort, hbytes, hv]
  cases v with
  | fatal => exact absurd rfl hgo
  | _ => exact ⟨rfl, trivial, _, rfl⟩

theorem confReq_loop
    (hv : ∀ w, Comes (confReq ftOpt) m l w0 w → w.off < l → ∀ v,
      (ftOpt w.st.pp (copyOption m l w.off w.opt)).1 = v → v ≠ .fatal ∧ v ≠ .other)
    {os : List (List UInt8)} (hos : ∀ o ∈ os, WellFormed o) (hw : Comes (confReq ftOpt) m l w0 w)
    (hm : ∀ i < os.flatten.length, m (w.off + i) = os.flatten.getD i 0)
    (hl : w.off + os.flatten.length = l) (hb : Built w.st)
    (hoff : ∀ a ∈ w.st.answers, a.1.off < w.off) :
    ∃ n w', optionLoop (confReq ftOpt) m l n w = some w' ∧ Built w'.st ∧
      w'.st.answers.map Prod.fst = w.st.answers.map Prod.fst ++ entries w.off os := by
  induction os generalizing w with
  | nil =>
    refine ⟨1, w, ?_, hb, (append_nil _).symm⟩
    rw [optionLoop, if_neg (by simp at hl; omega)]
  | cons o os ih =>
    have ho := hos o mem_cons_self
    rw [flatten_cons, length_append] at hl hm
    have hlt : w.off < l := by
      have := ho.1
      omega
    obtain ⟨v, hverdict⟩ : ∃ v, (ftOpt w.st.pp (copyOption m l w.off w.opt)).1 = v := ⟨_, rfl⟩
    have hgood := hv w hw hlt v hverdict
    obtain ⟨hgo, hoff', pp, hst⟩ := optionTurn_confReq ho (fun i hi => by
      rw [hm i (by omega), getD_append _ _ _ _ hi]) (by omega) hverdict hgood.1
    obtain ⟨as, has⟩ : ∃ as, as = w.st.answers ++ [((⟨w.off, o⟩ : Entry), v)] := ⟨_, rfl⟩
    have hanswers : (optionTurn (confReq ftOpt) m l w).2.st.answers = as := by
      rw [hst, has]
      cases v <;> rfl
    obtain ⟨n, w', hn, hb', hmap⟩ := ih (fun o ho => hos o (mem_cons_of_mem _ ho))
      (.next hw hlt hgo) (fun i hi => by
        rw [hoff', Nat.add_assoc, hm _ (by omega), getD_append_right _ _ _ _ (by omega),
          Nat.add_sub_cancel_left]) (by rw [hoff']; omega)
      (by
        rw [hst]
        exact Built.answer (b := { w.st with pp }) ⟨hb.reject, hb.nak, hb.of_rej, hb.of_nak, hb.iff⟩
          hoff hgood)
      (by
        rw [hanswers, has, hoff']
        intro a ha
        have := ho.1
        rcases mem_append.mp ha with ha | ha
        · have := hoff a ha
          omega
        · rw [mem_singleton.mp ha]
          dsimp only
          omega)
    refine ⟨n + 1, w', ?_, hb', ?_⟩
    · rw [optionLoop, if_pos hlt, if_pos hgo]
      exact hn
    · rw [hmap, hanswers, has, hoff', map_append, append_assoc]
      rfl

end loop

/-- Options of type 1 are accepted, of type 3 naked, and all others are rejected. -/
def byType : Unit → Opt → Verdict × Unit := fun _ opt =>
  (if opt 0 = 1 then .ok else if opt 0 = 3 then .nak opt else .rej, ())

end Bsd386.Net.Ppp
