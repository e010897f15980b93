import Bsd386.Net.Ip.Slices
import Mathlib.Data.List.Induction

/-!
# Fragments in any order

What `ipintr` and `ip_reass` make of the fragments of a datagram, whatever the order they arrive
in, how often, and however they overlap.
-/

namespace Bsd386.Net.Ip

open List Lib

variable {D : List UInt8} {frs : List Frag} {f : Frag} {fp : Option (List Ipasfrag)}

/-- Where a fragment in the queue begins. -/
def fragStart (e : Ipasfrag) : ℕ := e.off.toNat

/-- How long a fragment in the queue is. -/
def fragLen (e : Ipasfrag) : ℕ := e.len.toNat

/-! ## Completeness -/

theorem faithful_ops (hD : D.length ≤ 32767) :
    Reassembly.Faithful ops (Slice D) fragStart fragLen := by
  have hoff : ∀ e, Slice D e → e.off.toInt = e.off.toNat := by
    intro e he
    have hstop := he.stop_le
    rw [toInt_short, if_pos (by omega)]
  have hlen : ∀ e, Slice D e → e.len.toInt = e.len.toNat := by
    intro e he
    have hle := he.len_le
    rw [toInt_short, if_pos (by omega)]
  refine ⟨fun p q hp hq => ?_, fun p q hp hq => ?_, hlen, fun p i hp _ hi => ?_⟩
  · have h : ops.after q p = true ↔ p.off.toInt < q.off.toInt := decide_eq_true_iff
    rw [h, hoff p hp, hoff q hq]
    exact Int.ofNat_lt
  · have h : ops.beyond p q = p.off.toInt + p.len.toInt - q.off.toInt := rfl
    rw [h, hoff p hp, hlen p hp, hoff q hq]
    rfl
  · exact hp.trim (by omega) hi

section

variable {qs : List Ipasfrag} (hD : D.length ≤ 32767) (hqs : ∀ q ∈ qs, Slice D q)
  (hsort : Reassembly.Sorted fragStart fragLen qs)
include hD hqs hsort

theorem contiguous_complete {n : ℕ} (hn : n ≤ D.length) (hge : ∀ q ∈ qs, n ≤ fragStart q)
    (hcov : ∀ x, n ≤ x → x < D.length → Reassembly.Covered fragStart fragLen qs x) :
    contiguous n qs = some (D.length : ℤ) := by
  induction qs generalizing n with
  | nil =>
    rw [contiguous]
    have hend : n = D.length := by
      by_contra hne
      obtain ⟨e, he, -⟩ := hcov n le_rfl (by omega)
      exact absurd he not_mem_nil
    rw [hend]
  | cons q qs ih =>
    have hq := hqs q mem_cons_self
    have hstop : fragStart q + fragLen q ≤ D.length := hq.stop_le
    have hqn := hge q mem_cons_self
    obtain ⟨hhead, htail⟩ := pairwise_cons.mp hsort
    have hstart : fragStart q = n := by
      by_cases hnD : n < D.length
      · obtain ⟨e, he, hle, hlt⟩ := hcov n le_rfl hnD
        rcases mem_cons.mp he with rfl | he
        · omega
        · have hqe := hhead e he
          omega
      · omega
    have hoff := toInt_short q.off
    have hlen := toInt_short q.len
    have hsize := hq.len_le
    have hpos : q.off.toNat = n := hstart
    rw [if_pos (by omega)] at hoff hlen
    rw [contiguous, if_pos (by omega), hlen, ← Int.natCast_add]
    refine ih (fun e he => hqs e (mem_cons_of_mem q he)) htail ?_ ?_ ?_
    · have := hq.stop_le
      omega
    · intro e he
      have hqe := hhead e he
      rw [hstart] at hqe
      exact hqe
    · intro x hx hxD
      obtain ⟨e, he, hle, hlt⟩ := hcov x (by omega) hxD
      rcases mem_cons.mp he with rfl | he
      · have hlt' : x < e.off.toNat + e.len.toNat := hlt
        omega
      · exact ⟨e, he, hle, hlt⟩

/-- **Completeness of reassembly**: a queue in order that covers `D` is a complete datagram. -/
theorem checkComplete_complete (hcov : ∀ x < D.length, Reassembly.Covered fragStart fragLen qs x) :
    ∃ d, (checkComplete qs).2 = some d := by
  have hcont : contiguous 0 qs = some (D.length : ℤ) :=
    contiguous_complete (n := 0) hD hqs hsort (Nat.zero_le _) (fun q _ => Nat.zero_le _)
      fun x _ hx => hcov x hx
  have hlast : qs.getLast?.any (·.mff) = false := by
    rcases eq_nil_or_concat qs with rfl | ⟨init, l, rfl⟩
    · rfl
    rw [concat_eq_append] at hqs hsort hcov ⊢
    rw [getLast?_concat, Option.any_some, Bool.eq_false_iff]
    intro hmff
    have hlt := (hqs l (by simp)).mff_iff.mp hmff
    obtain ⟨e, he, hle, hxe⟩ := hcov _ hlt
    rcases mem_append.mp he with he | he
    · have hel : fragStart e + fragLen e ≤ fragStart l :=
        (pairwise_append.mp hsort).2.2 e he l (by simp)
      have hx : fragStart l ≤ l.off.toNat + l.len.toNat := Nat.le_add_right _ _
      omega
    · rw [mem_singleton.mp he] at hxe
      exact Nat.lt_irrefl _ hxe
  rw [checkComplete, hcont]
  simp only [hlast, Bool.false_eq_true, if_false]
  exact ⟨_, rfl⟩

end

/-! ## One fragment -/

theorem ipReass_eq (fp : Option (List Ipasfrag)) (ip : Ipasfrag) :
    ipReass true fp ip = match Reassembly.insert ops ip (fp.getD []) with
      | none => (fp, none)
      | some qs => checkComplete qs := by
  cases fp with
  | none => rfl
  | some qs => rfl

theorem checkComplete_cases (qs : List Ipasfrag) :
    checkComplete qs = (some qs, none) ∨ ∃ d, checkComplete qs = (none, some d) := by
  unfold checkComplete
  split
  · exact .inl rfl
  · split
    · exact .inl rfl
    · exact .inr ⟨_, rfl⟩

/-- The chain holds slices that lie within received fragments. -/
def Holds (D : List UInt8) (frs : List Frag) (fp : Option (List Ipasfrag)) : Prop :=
  ∀ e ∈ fp.getD [], Slice D e ∧ Within frs e

/-- The chain is in order and covers what the received fragments that were not dropped cover. -/
def Ordered (frs : List Frag) (fp : Option (List Ipasfrag)) : Prop :=
  Reassembly.Sorted fragStart fragLen (fp.getD []) ∧
    ∀ x, Reassembly.Covered fragStart fragLen (fp.getD []) x ↔
      ∃ f ∈ frs.filter Short, f.start ≤ x ∧ x < f.start + f.len

theorem exists_filter_append (hs : Short f) (x : ℕ) :
    (∃ g ∈ (frs ++ [f]).filter Short, g.start ≤ x ∧ x < g.start + g.len) ↔
      (∃ g ∈ frs.filter Short, g.start ≤ x ∧ x < g.start + g.len) ∨
        (f.start ≤ x ∧ x < f.start + f.len) := by
  rw [filter_append, filter_cons_of_pos (by simpa using hs), filter_nil]
  constructor
  · rintro ⟨g, hg, hx⟩
    rcases mem_append.mp hg with hg | hg
    · exact .inl ⟨g, hg, hx⟩
    · rw [mem_singleton.mp hg] at hx
      exact .inr hx
  · rintro (⟨g, hg, hx⟩ | hx)
    · exact ⟨g, mem_append_left _ hg, hx⟩
    · exact ⟨f, mem_append_right _ (mem_singleton.mpr rfl), hx⟩

theorem Holds.append
    (h : Holds D frs fp) (f : Frag) : Holds D (frs ++ [f]) fp := by
  intro e he
  obtain ⟨hslice, g, hg, hrest⟩ := h e he
  exact ⟨hslice, g, mem_append_left _ hg, hrest⟩

/-- **One fragment, for every datagram**: the chain goes on holding slices within received
fragments, and a datagram that is returned is `D`, with the fragments covering it. -/
theorem ipintr_sound (hD : D.length ≤ 65515)
    (hfp : Holds D frs fp) (hf : IsPart D f) :
    Holds D (frs ++ [f]) (ipintr true fp (packetOf D f)).1 ∧
      ∀ d, (ipintr true fp (packetOf D f)).2 = some d →
        Covers D ((frs ++ [f]).filter Short) ∧ d.data = D ∧ d.len = BitVec.ofNat 16 D.length := by
  rw [ipintr_packetOf hD hf]
  split
  · next hs =>
      obtain ⟨hslice, hoff, hlen⟩ := slice_fragOf hD hf hs
      have hnew : Slice D (fragOf D f) ∧ Within (frs ++ [f]) (fragOf D f) :=
        ⟨hslice, f, mem_append_right _ (mem_singleton.mpr rfl), hs, by omega, by omega⟩
      rw [ipReass_eq]
      split
      · exact ⟨hfp.append f, fun d hd => absurd hd (by simp)⟩
      next qs hins =>
        have hqs := insert_slices hD hnew (hfp.append f) hins
        refine ⟨?_, fun d hd => checkComplete_sound hqs (Reassembly.insert_ne_nil hins) hd⟩
        rcases checkComplete_cases qs with heq | ⟨d, heq⟩
        · rw [heq]
          exact hqs
        · rw [heq]
          exact fun e he => absurd he not_mem_nil
  · exact ⟨hfp.append f, fun d hd => absurd hd (by simp)⟩

/-- **One fragment, of a datagram of at most 32767 bytes** that is not covered before: if it is
covered then, a datagram is returned, and otherwise the chain stays in order. -/
theorem ipintr_step (hD : D.length ≤ 32767)
    (hfp : Holds D frs fp) (hord : Ordered frs fp)
    (hnot : ¬Covers D (frs.filter Short)) (hf : IsPart D f) :
    (Covers D ((frs ++ [f]).filter Short) → ∃ d, (ipintr true fp (packetOf D f)).2 = some d) ∧
      (¬Covers D ((frs ++ [f]).filter Short) →
        Ordered (frs ++ [f]) (ipintr true fp (packetOf D f)).1) := by
  have hsound := (ipintr_sound (by omega) hfp hf).2
  rw [ipintr_packetOf (by omega) hf] at hsound ⊢
  split
  · next hs =>
      rw [if_pos hs] at hsound
      obtain ⟨hslice, hoff, hlen⟩ := slice_fragOf (by omega) hf hs
      have hspec := (faithful_ops hD).insert_spec hslice (fun q hq => (hfp q hq).1) hord.1
      have hstart : fragStart (fragOf D f) = f.start := hoff
      have hsize : fragLen (fragOf D f) = f.len := hlen
      rw [hstart, hsize] at hspec
      rw [ipReass_eq] at hsound ⊢
      cases hins : Reassembly.insert ops (fragOf D f) (fp.getD []) with
      | none =>
        rw [hins] at hspec
        -- nothing new is covered
        have hsame : ∀ x, (∃ g ∈ (frs ++ [f]).filter Short, g.start ≤ x ∧ x < g.start + g.len) ↔
            ∃ g ∈ frs.filter Short, g.start ≤ x ∧ x < g.start + g.len := by
          intro x
          rw [exists_filter_append hs]
          exact ⟨fun h => h.elim id fun hx => (hord.2 x).mp (hspec x hx.1 hx.2), .inl⟩
        refine ⟨fun hcov => ?_, fun _ => ⟨hord.1, fun x => ?_⟩⟩
        · exact absurd (fun x hx => (hsame x).mp (hcov x hx)) hnot
        · exact (hord.2 x).trans (hsame x).symm
      | some qs =>
        rw [hins] at hspec hsound
        dsimp only at hsound ⊢
        obtain ⟨hok, hsort, hcovered⟩ := hspec
        have hiff : ∀ x, Reassembly.Covered fragStart fragLen qs x ↔
            ∃ g ∈ (frs ++ [f]).filter Short, g.start ≤ x ∧ x < g.start + g.len := by
          intro x
          rw [exists_filter_append hs, hcovered, hord.2]
        refine ⟨fun hcov => ?_, fun hncov => ?_⟩
        · exact checkComplete_complete hD hok hsort fun x hx => (hiff x).mpr (hcov x hx)
        · rcases checkComplete_cases qs with heq | ⟨d, heq⟩
          · rw [heq]
            exact ⟨hsort, hiff⟩
          · exact absurd (hsound d (by rw [heq])).1 hncov
  · next hs =>
      have hfilter : (frs ++ [f]).filter Short = frs.filter Short := by
        rw [filter_append, filter_cons_of_neg (by simpa using hs), filter_nil,
          append_nil]
      rw [hfilter]
      refine ⟨fun hcov => absurd hcov hnot, fun _ => ⟨hord.1, fun x => ?_⟩⟩
      rw [hfilter]
      exact hord.2 x

/-! ## All fragments -/

/-- The chain after fragments have arrived. Source: ipintr -/
def afterFrags (D : List UInt8) (frs : List Frag) : Option (List Ipasfrag) :=
  frs.foldl (fun fp f => (ipintr true fp (packetOf D f)).1) none

theorem afterFrags_append (D : List UInt8) (frs : List Frag) (f : Frag) :
    afterFrags D (frs ++ [f]) = (ipintr true (afterFrags D frs) (packetOf D f)).1 := by
  simp only [afterFrags, foldl_append, foldl_cons, foldl_nil]

theorem holds_afterFrags (hD : D.length ≤ 65515)
    (hfrs : ∀ f ∈ frs, IsPart D f) : Holds D frs (afterFrags D frs) := by
  induction frs using reverseRecOn with
  | nil => exact fun e he => absurd he not_mem_nil
  | append_singleton frs f ih =>
    rw [afterFrags_append]
    exact (ipintr_sound hD (ih fun g hg => hfrs g (mem_append_left _ hg))
      (hfrs f (mem_append_right _ (mem_singleton.mpr rfl)))).1

theorem Covers.mono {frs' : List Frag} (h : Covers D frs)
    (hsub : ∀ f ∈ frs, f ∈ frs') : Covers D frs' := by
  intro x hx
  obtain ⟨f, hf, hxf⟩ := h x hx
  exact ⟨f, hsub f hf, hxf⟩

theorem ordered_afterFrags (hD : D.length ≤ 32767)
    (hfrs : ∀ f ∈ frs, IsPart D f) (hnot : ¬Covers D (frs.filter Short)) :
    Ordered frs (afterFrags D frs) := by
  induction frs using reverseRecOn with
  | nil =>
    refine ⟨List.Pairwise.nil, fun x => ⟨?_, ?_⟩⟩
    · rintro ⟨e, he, -⟩
      exact absurd he not_mem_nil
    · rintro ⟨f, hf, -⟩
      exact absurd hf not_mem_nil
  | append_singleton frs f ih =>
    have hfrs' : ∀ g ∈ frs, IsPart D g := fun g hg => hfrs g (mem_append_left _ hg)
    have hnot' : ¬Covers D (frs.filter Short) := fun h => hnot <| h.mono fun g hg => by
      rw [filter_append]
      exact mem_append_left _ hg
    rw [afterFrags_append]
    exact (ipintr_step hD (holds_afterFrags (by omega) hfrs') (ih hfrs' hnot') hnot'
      (hfrs f (mem_append_right _ (mem_singleton.mpr rfl)))).2 hnot

/-- No fragment before the one that completes the cover of `D` gives a datagram, and that one gives
exactly `D`.
Source: ip_reass -/
def Reassembles (D : List UInt8) (frs : List Frag) : Prop :=
  ∀ pre f post, frs = pre ++ f :: post → ¬Covers D pre →
    (¬Covers D (pre ++ [f]) → (ipintr true (afterFrags D pre) (packetOf D f)).2 = none) ∧
    (Covers D (pre ++ [f]) → ∃ d, (ipintr true (afterFrags D pre) (packetOf D f)).2 = some d ∧
      d.len.toInt = D.length ∧ d.data = D)

/-- If the fragments cover `D`, its length is positive as a `short`, and the fragments up to the one
that completes the cover whose packets have such a length cover it too. -/
def ShortCover (D : List UInt8) (frs : List Frag) : Prop :=
  ∀ pre f post, frs = pre ++ f :: post → ¬Covers D pre → Covers D (pre ++ [f]) →
    D.length ≤ 32767 ∧ Covers D ((pre ++ [f]).filter Short)

theorem ipintr_three (hD : D.length ≤ 65515) {g h : Frag}
    (hf : IsPart D f ∧ Short f) (hg : IsPart D g ∧ Short g) (hh : IsPart D h ∧ Short h) :
    ipintr true (afterFrags D [f, g]) (packetOf D h) =
      ipReass true (ipReass true (ipReass true none (fragOf D f)).1 (fragOf D g)).1
        (fragOf D h) := by
  simp only [afterFrags, foldl_cons, foldl_nil]
  rw [ipintr_packetOf hD hf.1, ipintr_packetOf hD hg.1, ipintr_packetOf hD hh.1, if_pos hf.2,
    if_pos hg.2, if_pos hh.2]

theorem ipReass_long (a b c : List UInt8) :
    (ipReass true (ipReass true (ipReass true none ⟨0#16, 16384#16, true, a⟩).1
      ⟨16384#16, 16384#16, true, b⟩).1 ⟨32768#16, 7232#16, false, c⟩).2 = none := by
  simp [ipReass, checkComplete, contiguous, Reassembly.insert, ops, Reassembly.trimNext]

end Bsd386.Net.Ip
