import Mathlib.Data.List.Basic
import Mathlib.Algebra.Ring.Nat

/-!
# PPP control protocols: the option loops

The loops of `ppp_cp_in` (`sys/net/ppp_fsm.c`) over the options of a Configure-Request and of a
Configure-Nak or Configure-Reject, for whatever is done with an option (`Loop`). An option is copied to
the automatic variable `opt`, of which memory is known up to where the packet ends.

**Result** (`parses_iff`): a loop ends, goes over each option once and hands on only options within the
packet exactly when each option that it comes to is proper (`Proper`).
-/

namespace Bsd386.Net.Ppp

open List

/-- The memory from `opt.po_type` on. -/
abbrev Opt := ℕ → UInt8

/-- Source: ppp_proto.h -/
def lcpOptMaxsize : ℕ := 34

/-- `po_len`. -/
def poLen (opt : Opt) : ℕ := (opt 1).toNat

/-- `m_copydata` of the next option, of which `l - off` bytes are in the packet.
Source: ppp_cp_in -/
def copyOption (m : ℕ → UInt8) (l off : ℕ) (opt : Opt) : Opt := fun i =>
  if i < (if l < lcpOptMaxsize + off then l - off else lcpOptMaxsize) then m (off + i) else opt i

/-- What a loop does with an option: with one that is too long, if it checks that; and with any other,
where `false` is the return after `OPT_FATAL`. An option may be rewritten in `opt`.
Source: ppp_cp_in -/
structure Loop (σ : Type) where
  long : Option (ℕ → σ → Opt → σ)
  handle : ℕ → σ → Opt → Bool × σ × Opt

/-- Where a loop is. `seen` are the offsets of the options that it has been at, `given` the offsets and
lengths of those handed on. Source: ppp_cp_in -/
structure Walk (σ : Type) where
  off : ℕ
  opt : Opt
  st : σ
  seen : List ℕ
  given : List (ℕ × ℕ)

section loop

variable {σ : Type} (L : Loop σ) (m : ℕ → UInt8) (l : ℕ)

/-- One turn, and whether the loop goes on. Source: ppp_cp_in -/
def optionTurn (w : Walk σ) : Bool × Walk σ :=
  let opt := copyOption m l w.off w.opt
  let w' := { w with off := w.off + poLen opt, opt := opt, seen := w.seen ++ [w.off] }
  match if lcpOptMaxsize < poLen opt then L.long else none with
  | some long => (true, { w' with st := long w.off w.st opt })
  | none =>
    let r := L.handle w.off w.st opt
    (r.1, { w' with st := r.2.1, opt := r.2.2, given := w.given ++ [(w.off, poLen opt)] })

/-- `while (off < l)`, for a number of turns. Source: ppp_cp_in -/
def optionLoop : ℕ → Walk σ → Option (Walk σ)
  | 0, _ => none
  | n + 1, w =>
    if w.off < l then
      if (optionTurn L m l w).1 then optionLoop n (optionTurn L m l w).2
      else some (optionTurn L m l w).2
    else some w

/-- The loop comes to `w` from `w₀`. -/
inductive Comes (w₀ : Walk σ) : Walk σ → Prop where
  | start : Comes w₀ w₀
  | next {w : Walk σ} : Comes w₀ w → w.off < l → (optionTurn L m l w).1 = true →
      Comes w₀ (optionTurn L m l w).2

/-- The next option is proper: it is refused for its length, or it ends in the packet and is not empty,
unless the loop ends with it. Its length is what is left in `opt` if the packet has only its type.
Source: ppp_cp_in -/
def Proper (w : Walk σ) : Prop :=
  (optionTurn L m l w).2.given = w.given ∨
    w.off + poLen (copyOption m l w.off w.opt) ≤ l ∧
      (0 < poLen (copyOption m l w.off w.opt) ∨ (optionTurn L m l w).1 = false)

/-- The loop ends; it has been at each option once; and what it handed on was in the packet.
Source: none: what is claimed -/
def Parses (w₀ : Walk σ) : Prop :=
  ∃ n w, optionLoop L m l n w₀ = some w ∧ w.seen.Pairwise (· < ·) ∧ ∀ g ∈ w.given, g.1 + g.2 ≤ l

variable {L m l} {w w' w₀ : Walk σ}

theorem optionTurn_spec (w : Walk σ) :
    (optionTurn L m l w).2.off = w.off + poLen (copyOption m l w.off w.opt) ∧
      (optionTurn L m l w).2.seen = w.seen ++ [w.off] ∧
        ((optionTurn L m l w).2.given = w.given ∧ (optionTurn L m l w).1 = true ∧
            lcpOptMaxsize < poLen (copyOption m l w.off w.opt) ∨
          (optionTurn L m l w).2.given =
            w.given ++ [(w.off, poLen (copyOption m l w.off w.opt))]) := by
  unfold optionTurn
  dsimp only
  split
  · next long hlong =>
    have hlt : lcpOptMaxsize < poLen (copyOption m l w.off w.opt) := by
      by_contra hle
      rw [if_neg hle] at hlong
      cases hlong
    exact ⟨rfl, rfl, .inl ⟨rfl, rfl, hlt⟩⟩
  · exact ⟨rfl, rfl, .inr rfl⟩

theorem prefix_of_optionLoop {n : ℕ} (h : optionLoop L m l n w = some w') :
    w.seen <+: w'.seen ∧ w.given <+: w'.given := by
  induction n generalizing w with
  | zero => cases h
  | succ n ih =>
    have hturn : w.seen <+: (optionTurn L m l w).2.seen ∧ w.given <+: (optionTurn L m l w).2.given := by
      obtain ⟨-, hseen, ⟨hgiven, -⟩ | hgiven⟩ := optionTurn_spec (L := L) (m := m) (l := l) w
      · exact ⟨hseen ▸ prefix_append _ _, hgiven ▸ prefix_rfl⟩
      · exact ⟨hseen ▸ prefix_append _ _, hgiven ▸ prefix_append _ _⟩
    rw [optionLoop] at h
    split_ifs at h with hoff hgo
    · obtain ⟨h1, h2⟩ := ih h
      exact ⟨hturn.1.trans h1, hturn.2.trans h2⟩
    · cases h
      exact hturn
    · cases h
      exact ⟨prefix_rfl, prefix_rfl⟩

theorem Comes.optionLoop (h : Comes L m l w₀ w) {n : ℕ} (hn : optionLoop L m l n w₀ = some w') :
    ∃ n, Ppp.optionLoop L m l n w = some w' := by
  induction h with
  | start => exact ⟨n, hn⟩
  | next _ hoff hgo ih =>
    obtain ⟨n, hn⟩ := ih
    cases n with
    | zero => cases hn
    | succ n =>
      rw [Ppp.optionLoop, if_pos hoff, if_pos hgo] at hn
      exact ⟨n, hn⟩

theorem parses_of_proper (h : ∀ w, Comes L m l w₀ w → w.off < l → Proper L m l w)
    (hw : Comes L m l w₀ w) (hseen : w.seen.Pairwise (· < ·)) (hlt : ∀ o ∈ w.seen, o < w.off)
    (hgiven : ∀ g ∈ w.given, g.1 + g.2 ≤ l) : Parses L m l w := by
  -- the bytes that are left decide how many turns there are
  obtain ⟨d, hd⟩ : ∃ d, l - w.off = d := ⟨_, rfl⟩
  induction d using Nat.strongRecOn generalizing w with
  | ind d ih =>
    by_cases hoff : w.off < l
    · obtain ⟨hoff', hseen', hgiven'⟩ := optionTurn_spec (L := L) (m := m) (l := l) w
      have hproper := h w hw hoff
      have hsorted : (optionTurn L m l w).2.seen.Pairwise (· < ·) := by
        rw [hseen']
        refine pairwise_append.mpr ⟨hseen, pairwise_singleton _ _, fun a ha b hb => ?_⟩
        rw [mem_singleton.mp hb]
        exact hlt a ha
      have hwithin : ∀ g ∈ (optionTurn L m l w).2.given, g.1 + g.2 ≤ l := by
        rcases hproper with heq | ⟨hle, -⟩
        · rwa [heq]
        rcases hgiven' with ⟨heq, -⟩ | heq
        · rwa [heq]
        rw [heq]
        intro g hg
        rcases mem_append.mp hg with hg | hg
        · exact hgiven g hg
        · rw [mem_singleton.mp hg]
          exact hle
      by_cases hgo : (optionTurn L m l w).1 = true
      · have hpos : 0 < poLen (copyOption m l w.off w.opt) := by
          rcases hgiven' with ⟨-, -, hlong⟩ | heq
          · exact Nat.lt_of_le_of_lt (Nat.zero_le _) hlong
          rcases hproper with heq' | ⟨-, hpos | hstop⟩
          · exact absurd (heq'.symm.trans heq) (by simp)
          · exact hpos
          · exact absurd (hgo.symm.trans hstop) nofun
        obtain ⟨n, w', hn, hw'⟩ := ih _ (by omega) (.next hw hoff hgo) hsorted (by
          rw [hseen', hoff']
          intro o ho
          rcases mem_append.mp ho with ho | ho
          · exact Nat.lt_of_lt_of_le (hlt o ho) (Nat.le_add_right _ _)
          · rw [mem_singleton.mp ho]
            omega) hwithin rfl
        refine ⟨n + 1, w', ?_, hw'⟩
        rw [optionLoop, if_pos hoff, if_pos hgo]
        exact hn
      · refine ⟨1, _, ?_, hsorted, hwithin⟩
        rw [optionLoop, if_pos hoff, if_neg hgo]
    · refine ⟨1, w, ?_, hseen, hgiven⟩
      rw [optionLoop, if_neg hoff]

theorem Parses.proper (h : Parses L m l w) (hoff : w.off < l) : Proper L m l w := by
  obtain ⟨n, w', hn, hsorted, hgiven⟩ := h
  obtain ⟨hoff', hseen', hgiven'⟩ := optionTurn_spec (L := L) (m := m) (l := l) w
  cases n with
  | zero => cases hn
  | succ n =>
    rw [optionLoop, if_pos hoff] at hn
    have hpre : (optionTurn L m l w).2.seen <+: w'.seen ∧ (optionTurn L m l w).2.given <+: w'.given := by
      split_ifs at hn with hgo
      · exact prefix_of_optionLoop hn
      · cases hn
        exact ⟨prefix_rfl, prefix_rfl⟩
    rcases hgiven' with ⟨heq, -⟩ | heq
    · exact .inl heq
    refine .inr ⟨hgiven (w.off, _) (hpre.2.subset ?_), ?_⟩
    · rw [heq]
      exact mem_append_cons_self
    · by_contra hno
      obtain ⟨hzero, hgo⟩ := not_or.mp hno
      have hsame : (optionTurn L m l w).2.off = w.off := by omega
      -- the next turn is at the same option again
      rw [if_pos (by simpa using hgo)] at hn
      cases n with
      | zero => cases hn
      | succ n =>
        have hagain : (optionTurn L m l (optionTurn L m l w).2).2.seen <+: w'.seen := by
          rw [optionLoop, if_pos (hsame ▸ hoff)] at hn
          split_ifs at hn with hgo'
          · exact (prefix_of_optionLoop hn).1
          · cases hn
            exact prefix_rfl
        rw [(optionTurn_spec _).2.1, hseen', hsame] at hagain
        have hboth := pairwise_append.mp (hsorted.sublist hagain.sublist)
        exact Nat.lt_irrefl _ (hboth.2.2 w.off mem_append_cons_self w.off
          mem_cons_self)

end loop

/-! ## The packet -/

/-- The options of a packet: `none` if the declared length is more than there is.
Source: ppp_cp_in -/
def cpOptions (pkt : List UInt8) : Option ℕ :=
  let l := (pkt.getD 2 0).toNat * 256 + (pkt.getD 3 0).toNat
  if pkt.length < l then none else some (l - 4)

theorem le_of_cpOptions {pkt : List UInt8} {l : ℕ} (hl : cpOptions pkt = some l) :
    l ≤ pkt.length - 4 := by
  unfold cpOptions at hl
  dsimp only at hl
  split_ifs at hl
  cases hl
  omega

/-- A loop at its start; `opt` has not been written. Source: ppp_cp_in -/
def Walk.begin {σ : Type} (opt : Opt) (st : σ) : Walk σ := ⟨0, opt, st, [], []⟩

/-- **The option loops.** Whatever is done with the options, of every packet that is not dropped for its
declared length: the options handed on are in the packet, each is consumed once, and the loop ends,
exactly when each option that it comes to is proper.
Source: ppp_cp_in. Kind: C -/
theorem parses_iff {σ : Type} (L : Loop σ) (pkt : List UInt8) {l : ℕ} (hl : cpOptions pkt = some l)
    (opt : Opt) (st : σ) :
    (Parses L (fun i => pkt.getD (4 + i) 0) l (Walk.begin opt st) ∧ l ≤ pkt.length - 4) ↔
      ∀ w, Comes L (fun i => pkt.getD (4 + i) 0) l (Walk.begin opt st) w → w.off < l →
        Proper L (fun i => pkt.getD (4 + i) 0) l w := by
  constructor
  · rintro ⟨⟨n, w', hn, hfine⟩, -⟩ w hw
    obtain ⟨n, hn⟩ := hw.optionLoop hn
    exact Parses.proper ⟨n, w', hn, hfine⟩
  · intro h
    exact ⟨parses_of_proper h .start List.Pairwise.nil (fun o ho => absurd ho not_mem_nil)
      fun g hg => absurd hg not_mem_nil, le_of_cpOptions hl⟩

/-- A loop that refuses options that are too long and accepts all others.
Source: ppp_cp_in. -/
def acceptAll : Loop Unit := ⟨some fun _ st _ => st, fun _ st opt => (true, st, opt)⟩

/-- A Configure-Request with a Maximum-Receive-Unit of 1500. Kind: C -/
theorem parses_iff_mru : cpOptions [1, 0, 0, 8, 1, 4, 5, 220] = some 4 ∧
    ((Parses acceptAll (fun i => [1, 0, 0, 8, 1, 4, 5, 220].getD (4 + i) 0) 4
        (Walk.begin (fun _ => 0) ()) ∧ 4 ≤ [1, 0, 0, 8, 1, 4, 5, (220 : UInt8)].length - 4) ↔
      ∀ w, Comes acceptAll (fun i => [1, 0, 0, 8, 1, 4, 5, 220].getD (4 + i) 0) 4
        (Walk.begin (fun _ => 0) ()) w → w.off < 4 →
          Proper acceptAll (fun i => [1, 0, 0, 8, 1, 4, 5, 220].getD (4 + i) 0) 4 w) :=
  have hl : cpOptions [1, 0, 0, 8, 1, 4, 5, 220] = some 4 := by decide +kernel
  ⟨hl, parses_iff acceptAll [1, 0, 0, 8, 1, 4, 5, 220] hl (fun _ => 0) ()⟩

/-- The loop over an option of length 0 does not end. Source: ppp_cp_in. Kind: C -/
theorem not_parses : ¬ ∀ (L : Loop Unit) (pkt : List UInt8) (l : ℕ), cpOptions pkt = some l →
    ∀ opt, Parses L (fun i => pkt.getD (4 + i) 0) l (Walk.begin opt ()) := by
  intro h
  have hproper := (h acceptAll [1, 0, 0, 6, 1, 0] 2 (by decide +kernel) fun _ => 0).proper (by decide)
  unfold Proper at hproper
  revert hproper
  decide +kernel

end Bsd386.Net.Ppp
