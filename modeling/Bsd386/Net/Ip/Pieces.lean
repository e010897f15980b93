import Bsd386.Net.Ip.Arrivals
import Mathlib.Data.List.Perm.Basic

/-!
# Consecutive pieces at the receiver

What `ipintr` and `ip_reass` make of fragments that are consecutive pieces of a part of `D`, each
once, in any order, when there is nothing else in the queue.
-/

namespace Bsd386.Net.Ip

open List Lib

variable {a b : ℕ} {frs σ : List Frag} {D : List UInt8} {f : Frag}

/-! ## Pieces -/

/-- The fragments are consecutive and not empty, from `a` to `b`. -/
def Cuts (a b : ℕ) : List Frag → Prop
  | [] => a = b
  | f :: frs => f.start = a ∧ 0 < f.len ∧ Cuts (a + f.len) b frs

theorem Cuts.bounds (h : Cuts a b frs) :
    a ≤ b ∧ ∀ f ∈ frs, a ≤ f.start ∧ 0 < f.len ∧ f.start + f.len ≤ b := by
  induction frs generalizing a with
  | nil => exact ⟨le_of_eq h, fun f hf => absurd hf not_mem_nil⟩
  | cons g frs ih =>
    obtain ⟨hstart, hpos, hrest⟩ := h
    obtain ⟨hle, hall⟩ := ih hrest
    refine ⟨by omega, fun f hf => ?_⟩
    rcases mem_cons.mp hf with rfl | hf
    · omega
    · have := hall f hf
      omega

theorem Cuts.pairwise (h : Cuts a b frs) :
    frs.Pairwise fun f g => f.start + f.len ≤ g.start := by
  induction frs generalizing a with
  | nil => exact List.Pairwise.nil
  | cons g frs ih =>
    obtain ⟨hstart, hpos, hrest⟩ := h
    refine pairwise_cons.mpr ⟨fun f hf => ?_, ih hrest⟩
    have := hrest.bounds.2 f hf
    omega

theorem Cuts.covers (h : Cuts a b frs) {x : ℕ} (hax : a ≤ x)
    (hxb : x < b) : ∃ f ∈ frs, f.start ≤ x ∧ x < f.start + f.len := by
  induction frs generalizing a with
  | nil =>
    have hab : a = b := h
    omega
  | cons g frs ih =>
    obtain ⟨hstart, hpos, hrest⟩ := h
    by_cases hx : x < a + g.len
    · exact ⟨g, mem_cons_self, by omega⟩
    · obtain ⟨f, hf, hxf⟩ := ih hrest (by omega)
      exact ⟨f, mem_cons_of_mem g hf, hxf⟩

/-- The fragments do not overlap, in whatever order they are. -/
def Apart (f g : Frag) : Prop := f.start + f.len ≤ g.start ∨ g.start + g.len ≤ f.start

theorem Cuts.apart (h : Cuts a b frs) (hσ : σ.Perm frs) :
    σ.Pairwise Apart :=
  hσ.symm.pairwise (h.pairwise.imp .inl) fun hfg => hfg.symm

/-! ## The queue -/

/-- Where a fragment of the queue belongs, as `ip_reass` sees it.
Source: ip_var.h struct ipasfrag -/
def key (e : Ipasfrag) : ℤ := e.off.toInt

/-- A slice of `D` that is not empty and whose packet `ipintr` does not drop.
Source: ipintr -/
structure IsPiece (D : List UInt8) (f : Frag) : Prop where
  part : IsPart D f
  short : Short f
  len_pos : 0 < f.len

section

variable (hD : D.length ≤ 65515) (hf : IsPiece D f)
include hD hf

theorem key_fragOf :
    key (fragOf D f) = (if f.start < 32768 then (f.start : ℤ) else f.start - 65536) ∧
      (fragOf D f).len.toInt = f.len := by
  obtain ⟨hslice, hoff, hlen⟩ := slice_fragOf hD hf.part hf.short
  have hlt : f.hlen + f.len < 32768 := hf.short
  have hkey := toInt_short (fragOf D f).off
  have hsize := toInt_short (fragOf D f).len
  rw [hoff] at hkey
  rw [hlen, if_pos (by omega)] at hsize
  exact ⟨hkey, hsize⟩

theorem beyond_fragOf {g : Frag} (hg : IsPiece D g) (hfg : Apart f g) :
    key (fragOf D f) ≠ key (fragOf D g) ∧ (key (fragOf D f) ≤ key (fragOf D g) →
      ops.beyond (fragOf D f) (fragOf D g) ≤ 0) := by
  obtain ⟨hkf, hlf⟩ := key_fragOf hD hf
  obtain ⟨hkg, -⟩ := key_fragOf hD hg
  have hfpos := hf.len_pos
  have hgpos := hg.len_pos
  have hfstop := hf.part.stop_le
  have hgstop := hg.part.stop_le
  have hbeyond : ops.beyond (fragOf D f) (fragOf D g) =
      key (fragOf D f) + (fragOf D f).len.toInt - key (fragOf D g) := rfl
  unfold Apart at hfg
  refine ⟨?_, fun hle => ?_⟩
  · split at hkf <;> split at hkg <;> omega
  · rw [hbeyond, hlf]
    split at hkf <;> split at hkg <;> omega

theorem insert_fragOf (hσ : ∀ g ∈ σ, IsPiece D g ∧ Apart g f) {qs : List Ipasfrag}
    (hperm : qs.Perm (σ.map (fragOf D))) (hsort : qs.Pairwise fun p q => key p < key q) :
    ∃ r, Reassembly.insert ops (fragOf D f) qs = some r ∧ r.Perm (fragOf D f :: qs) ∧
      r.Pairwise fun p q => key p < key q := by
  have hmem : ∀ q ∈ qs, ∃ g ∈ σ, fragOf D g = q := fun q hq =>
    mem_map.mp (hperm.subset hq)
  have hiff : ∀ q, ops.after q (fragOf D f) = true ↔ key (fragOf D f) < key q := fun q =>
    decide_eq_true_iff
  have hbefore : ∀ q ∈ qs, ops.after q (fragOf D f) = false → ops.beyond q (fragOf D f) ≤ 0 := by
    intro q hq hafter
    obtain ⟨g, hg, rfl⟩ := hmem q hq
    refine (beyond_fragOf hD (hσ g hg).1 hf (hσ g hg).2).2 (Int.not_lt.mp fun hlt => ?_)
    rw [(hiff _).mpr hlt] at hafter
    exact absurd hafter (by simp)
  have hbehind : ∀ q ∈ qs, ops.after q (fragOf D f) = true → ops.beyond (fragOf D f) q ≤ 0 := by
    intro q hq hafter
    obtain ⟨g, hg, rfl⟩ := hmem q hq
    exact (beyond_fragOf hD hf (hσ g hg).1 (hσ g hg).2.symm).2 (Int.le_of_lt ((hiff _).mp hafter))
  obtain ⟨pre, post, rfl, hpre, hhead, hins⟩ := Reassembly.insert_disjoint hbefore hbehind
  obtain ⟨hsp, hsq, hpq⟩ := pairwise_append.mp hsort
  -- those before it begin at another place, and not after it
  have hlt : ∀ q ∈ pre, key q < key (fragOf D f) := by
    intro q hq
    obtain ⟨g, hg, rfl⟩ := hmem q (mem_append_left _ hq)
    have hne := (beyond_fragOf hD (hσ g hg).1 hf (hσ g hg).2).1
    have hnot : ¬key (fragOf D f) < key (fragOf D g) := fun h => by
      have hafter := hpre _ hq
      rw [(hiff _).mpr h] at hafter
      exact absurd hafter (by simp)
    omega
  have hgt : ∀ q ∈ post, key (fragOf D f) < key q := by
    cases post with
    | nil => exact fun q hq => absurd hq not_mem_nil
    | cons q0 post =>
      have h0 := (hiff q0).mp (hhead q0 post rfl)
      intro q hq
      rcases mem_cons.mp hq with rfl | hq
      · exact h0
      · have := (pairwise_cons.mp hsq).1 q hq
        omega
  refine ⟨_, hins, perm_middle, ?_⟩
  refine pairwise_append.mpr ⟨hsp, pairwise_cons.mpr ⟨hgt, hsq⟩, fun q hq e he => ?_⟩
  rcases mem_cons.mp he with rfl | he
  · exact hlt q hq
  · exact hpq q hq e he

end

/-- **The queue while `D` is not complete**: the pieces that have arrived, in the order of their
offsets as signed numbers. -/
theorem chain_afterFrags (hD : D.length ≤ 65515)
    (hσ : ∀ f ∈ σ, IsPiece D f) (hapart : σ.Pairwise Apart) (hnot : ¬Covers D σ) :
    ((afterFrags D σ).getD []).Perm (σ.map (fragOf D)) ∧
      ((afterFrags D σ).getD []).Pairwise fun p q => key p < key q := by
  induction σ using reverseRecOn with
  | nil => exact ⟨List.Perm.nil, List.Pairwise.nil⟩
  | append_singleton σ f ih =>
    have hσ' : ∀ g ∈ σ, IsPiece D g := fun g hg => hσ g (mem_append_left _ hg)
    have hf := hσ f (mem_append_right _ (mem_singleton.mpr rfl))
    obtain ⟨hapart', -, hwith⟩ := pairwise_append.mp hapart
    have hnot' : ¬Covers D σ := fun h => hnot (h.mono fun g hg => mem_append_left _ hg)
    obtain ⟨hperm, hsort⟩ := ih hσ' hapart' hnot'
    have hnone := (ipintr_sound hD (holds_afterFrags hD fun g hg => (hσ' g hg).part) hf.part).2
    obtain ⟨r, hins, hr, hrsort⟩ := insert_fragOf hD hf
      (fun g hg => ⟨hσ' g hg, hwith g hg f (mem_singleton.mpr rfl)⟩) hperm hsort
    have hres : ipintr true (afterFrags D σ) (packetOf D f) = checkComplete r := by
      rw [ipintr_packetOf hD hf.part, if_pos hf.short, ipReass_eq, hins]
    rw [afterFrags_append]
    rw [hres] at hnone ⊢
    rcases checkComplete_cases r with heq | ⟨d, heq⟩
    · rw [heq]
      refine ⟨?_, hrsort⟩
      rw [map_append]
      exact (hr.trans (hperm.cons _)).trans (perm_append_singleton _ _).symm
    · have hcov := (hnone d (by rw [heq])).1
      exact absurd (hcov.mono fun g hg => (mem_filter.mp hg).1) hnot

/-! ## Arrivals -/

/-- One packet more: the queue, and the datagrams handed to the protocol.
Source: ipintr -/
def arrive (s : Option (List Ipasfrag) × List Datagram) (p : Packet) :
    Option (List Ipasfrag) × List Datagram :=
  ((ipintr true s.1 p).1, s.2 ++ (ipintr true s.1 p).2.toList)

/-- What packets make of a host that has no fragments.
Source: ipintr -/
def received (ps : List Packet) : Option (List Ipasfrag) × List Datagram :=
  ps.foldl arrive (none, [])

/-- The packet that carries a fragment, with the bit of `ip_off` that is neither a flag nor part of
the offset.
Source: ip.h struct ip -/
def sent (r : Bool) (D : List UInt8) (f : Frag) : Packet :=
  { packetOf D f with off := (packetOf D f).off ||| if r then 0x8000#16 else 0#16 }

theorem ipintr_sent (hD : D.length ≤ 65515) (hf : IsPart D f)
    (r : Bool) (fp : Option (List Ipasfrag)) :
    ipintr true fp (sent r D f) = ipintr true fp (packetOf D f) := by
  obtain ⟨-, -, hdf⟩ := packetOf_off hD hf
  cases r with
  | false =>
    rw [sent]
    simp only [Bool.false_eq_true, if_false, BitVec.or_zero]
  | true =>
    rw [sent]
    obtain ⟨p, hp⟩ : ∃ p, packetOf D f = p := ⟨_, rfl⟩
    rw [hp] at hdf ⊢
    have hmf : (p.off ||| 0x8000#16) &&& ipMf = p.off &&& ipMf := by
      rw [BitVec.and_or_distrib_right, show 0x8000#16 &&& ipMf = 0#16 from by decide,
        BitVec.or_zero]
    have hoff : (p.off ||| 0x8000#16) <<< 3 = p.off <<< 3 := by
      rw [BitVec.shiftLeft_or_distrib, show 0x8000#16 <<< 3 = 0#16 from by decide,
        BitVec.or_zero]
    have hdf' : ¬(p.off ||| 0x8000#16) &&& ~~~ipDf = 0 := by
      intro h
      rw [BitVec.and_or_distrib_right] at h
      exact hdf (BitVec.or_eq_zero_iff.mp h).1
    simp only [ipintr, if_true, hmf, hoff, if_neg hdf, if_neg hdf']

theorem ipintr_done (hD : D.length ≤ 65515) (hf : IsPart D f)
    {fp : Option (List Ipasfrag)} {d : Datagram}
    (h : (ipintr true fp (packetOf D f)).2 = some d) :
    (ipintr true fp (packetOf D f)).1 = none := by
  rw [ipintr_packetOf hD hf] at h ⊢
  by_cases hs : Short f
  · rw [if_pos hs, ipReass_eq] at h ⊢
    cases hins : Reassembly.insert ops (fragOf D f) (fp.getD []) with
    | none =>
      rw [hins] at h
      exact absurd h (by simp)
    | some qs =>
      rw [hins] at h
      dsimp only at h ⊢
      rcases checkComplete_cases qs with heq | ⟨d', heq⟩
      · rw [heq] at h
        exact absurd h (by simp)
      · rw [heq]
  · rw [if_neg hs] at h
    exact absurd h (by simp)

theorem received_append (ps : List Packet) (p : Packet) :
    received (ps ++ [p]) = arrive (received ps) p := by
  simp only [received, foldl_append, foldl_cons, foldl_nil]

theorem received_sent (hD : D.length ≤ 65515)
    (hσ : ∀ f ∈ σ, IsPart D f) (hnot : ¬Covers D σ) (r : Bool) :
    received (σ.map (sent r D)) = (afterFrags D σ, []) := by
  induction σ using reverseRecOn with
  | nil => rfl
  | append_singleton σ f ih =>
    have hσ' : ∀ g ∈ σ, IsPart D g := fun g hg => hσ g (mem_append_left _ hg)
    have hf := hσ f (mem_append_right _ (mem_singleton.mpr rfl))
    have hnot' : ¬Covers D σ := fun h => hnot (h.mono fun g hg => mem_append_left _ hg)
    have hsound := (ipintr_sound hD (holds_afterFrags hD hσ') hf).2
    rw [map_append, map_singleton, received_append, ih hσ' hnot', arrive,
      afterFrags_append]
    rw [ipintr_sent hD hf]
    cases hres : (ipintr true (afterFrags D σ) (packetOf D f)).2 with
    | none => rfl
    | some d =>
      exact absurd ((hsound d hres).1.mono fun g hg => (mem_filter.mp hg).1) hnot

/-- The queue holds the bytes `P` in order, from offset `n` on. -/
def Carries : ℕ → List UInt8 → List Ipasfrag → Prop
  | _, P, [] => P = []
  | n, P, q :: qs => q.off.toNat = n ∧ q.len.toNat = q.data.length ∧ q.data <+: P ∧
      Carries (n + q.data.length) (P.drop q.data.length) qs

theorem Cuts.carries (hD : D.length ≤ 65515)
    (hfrs : ∀ f ∈ frs, IsPiece D f) (h : Cuts a b frs) :
    Carries a ((D.drop a).take (b - a)) (frs.map (fragOf D)) := by
  induction frs generalizing a with
  | nil =>
    have hab : a = b := h
    rw [hab, Nat.sub_self, take_zero]
    rfl
  | cons f frs ih =>
    have hf := hfrs f mem_cons_self
    obtain ⟨hslice, hoff, hlen⟩ := slice_fragOf hD hf.part hf.short
    have hle := (h.bounds.2 f mem_cons_self).2.2
    obtain ⟨hstart, hpos, hrest⟩ := h
    have hstop := hf.part.stop_le
    have hdata : (fragOf D f).data = (D.drop a).take f.len := by
      rw [hslice.data_eq, hoff, hlen, hstart]
    have hsize : (fragOf D f).data.length = f.len := by
      rw [hdata, length_take, length_drop]
      omega
    refine ⟨hoff.trans hstart, hlen.trans hsize.symm, ?_, ?_⟩
    · rw [hdata]
      exact take_prefix_take_left (by omega)
    · rw [hsize, drop_take, drop_drop, show b - a - f.len = b - (a + f.len) from by omega]
      exact ih (fun g hg => hfrs g (mem_cons_of_mem f hg)) hrest

theorem Cuts.not_covers (h : Cuts a b frs)
    (hab : a < b) (hbD : b ≤ D.length) (hpart : a ≠ 0 ∨ b < D.length) (hσ : σ.Perm frs) :
    ¬Covers D σ := by
  intro hcov
  rcases hpart with ha | hb
  · obtain ⟨f, hf, hle, hlt⟩ := hcov 0 (by omega)
    have := h.bounds.2 f (hσ.subset hf)
    omega
  · obtain ⟨f, hf, hle, hlt⟩ := hcov b hb
    have := h.bounds.2 f (hσ.subset hf)
    omega

/-- **Pieces of a part of `D`**: whatever the order of their arrival there is no datagram, and the
queue holds their bytes in order exactly when they do not begin on both sides of byte 32768, where
offsets become negative. -/
theorem received_part (hD : D.length ≤ 65515)
    (h : Cuts a b frs) (hfrs : ∀ f ∈ frs, IsPiece D f) (hab : a < b) (hbD : b ≤ D.length)
    (hpart : a ≠ 0 ∨ b < D.length) (hσ : σ.Perm frs) (r : Bool) :
    (∃ qs, received (σ.map (sent r D)) = (some qs, []) ∧
        Carries a ((D.drop a).take (b - a)) qs) ↔
      (a < 32768 → ∀ f ∈ frs, f.start < 32768) := by
  have hpieces : ∀ f ∈ σ, IsPiece D f := fun f hf => hfrs f (hσ.subset hf)
  have hnot := h.not_covers hab hbD hpart hσ
  obtain ⟨hperm, hsort⟩ := chain_afterFrags hD hpieces (h.apart hσ) hnot
  rw [received_sent hD (fun f hf => (hpieces f hf).part) hnot r]
  have hchain : ((afterFrags D σ).getD []).Perm (frs.map (fragOf D)) := hperm.trans (hσ.map _)
  obtain ⟨f0, hf0, hle0, hlt0⟩ := h.covers le_rfl hab
  have hmem0 : fragOf D f0 ∈ (afterFrags D σ).getD [] :=
    hchain.symm.subset (mem_map_of_mem hf0)
  cases hq : afterFrags D σ with
  | none =>
    rw [hq] at hmem0
    exact absurd hmem0 not_mem_nil
  | some qs =>
    rw [hq, Option.getD_some] at hchain hsort hmem0
    have hkey : ∀ f ∈ frs, key (fragOf D f) =
        if f.start < 32768 then (f.start : ℤ) else f.start - 65536 := fun f hf =>
      (key_fragOf hD (hfrs f hf)).1
    constructor
    · rintro ⟨qs', heq, hcarry⟩ ha g hg
      obtain rfl : qs = qs' := Option.some.inj (congrArg Prod.fst heq)
      by_contra hge
      -- the first of the queue has a negative offset, so it is not the piece at `a`
      cases qs with
      | nil => exact absurd hmem0 not_mem_nil
      | cons q qs =>
        have hoff := hcarry.1
        have hqkey := toInt_short q.off
        rw [if_pos (by omega)] at hqkey
        have hkeydef : key q = q.off.toInt := rfl
        have hgmem : fragOf D g ∈ q :: qs := hchain.symm.subset (mem_map_of_mem hg)
        have hgkey := hkey g hg
        rw [if_neg hge] at hgkey
        have hgstop := (hfrs g hg).part.stop_le
        rcases mem_cons.mp hgmem with heq | hin
        · rw [heq] at hgkey
          omega
        · have := (pairwise_cons.mp hsort).1 _ hin
          omega
    · intro hside
      have hmono : (frs.map (fragOf D)).Pairwise fun p q => key p < key q := by
        refine pairwise_map.mpr (h.pairwise.imp_of_mem fun {f g} hf hg hfg => ?_)
        have hfpos := (h.bounds.2 f hf).2.1
        have hfa := (h.bounds.2 f hf).1
        rw [hkey f hf, hkey g hg]
        by_cases ha : a < 32768
        · have hf' := hside ha f hf
          have hg' := hside ha g hg
          rw [if_pos hf', if_pos hg']
          omega
        · rw [if_neg (by omega), if_neg (by omega)]
          omega
      have heq : qs = frs.map (fragOf D) :=
        hchain.eq_of_pairwise (fun p q _ _ hpq hqp => absurd (Int.lt_trans hpq hqp) (Int.lt_irrefl _))
          hsort hmono
      exact ⟨qs, rfl, by rw [heq]; exact h.carries hD hfrs⟩

/-- **Pieces of all of `D`**: whatever the order of their arrival, the last one completes the
datagram and none before does, exactly when `D` has at most 32767 bytes. -/
theorem received_all (hD : D.length ≤ 65515)
    (h : Cuts 0 D.length frs) (hfrs : ∀ f ∈ frs, IsPiece D f) (hpos : 0 < D.length)
    (hσ : σ.Perm frs) (r : Bool) :
    (∃ d, received (σ.map (sent r D)) = (none, [d]) ∧ d.len.toInt = D.length ∧ d.data = D) ↔
      D.length ≤ 32767 := by
  have hpieces : ∀ f ∈ σ, IsPiece D f := fun f hf => hfrs f (hσ.subset hf)
  have hapart := h.apart hσ
  have hcovers : Covers D σ := fun x hx => by
    obtain ⟨f, hf, hxf⟩ := h.covers (Nat.zero_le x) hx
    exact ⟨f, hσ.symm.subset hf, hxf⟩
  rcases eq_nil_or_concat σ with rfl | ⟨pre, f, rfl⟩
  · obtain ⟨f, hf, -⟩ := hcovers 0 hpos
    exact absurd hf not_mem_nil
  rw [concat_eq_append] at *
  have hpre : ∀ g ∈ pre, IsPiece D g := fun g hg => hpieces g (mem_append_left _ hg)
  have hparts : ∀ g ∈ pre, IsPart D g := fun g hg => (hpre g hg).part
  have hf := hpieces f (mem_append_right _ (mem_singleton.mpr rfl))
  have hfpos := hf.len_pos
  have hfstop := hf.part.stop_le
  -- the first byte of the last piece is in no other
  have hnot : ¬Covers D pre := by
    intro hc
    obtain ⟨g, hg, hle, hlt⟩ := hc f.start (by omega)
    have := (pairwise_append.mp hapart).2.2 g hg f (mem_singleton.mpr rfl)
    unfold Apart at this
    omega
  have hsound := (ipintr_sound hD (holds_afterFrags hD hparts) hf.part).2
  rw [map_append, map_singleton, received_append, received_sent hD hparts hnot, arrive]
  rw [ipintr_sent hD hf.part]
  have hnat : (BitVec.ofNat 16 D.length).toNat = D.length := Nat.mod_eq_of_lt (by omega)
  constructor
  · rintro ⟨d, heq, hlen, -⟩
    have hres : (ipintr true (afterFrags D pre) (packetOf D f)).2 = some d := by
      have hsnd := congrArg Prod.snd heq
      simpa using hsnd
    rw [(hsound d hres).2.2, toInt_short, hnat] at hlen
    split at hlen <;> omega
  · intro hle
    have hnot' : ¬Covers D (pre.filter Short) := fun hc =>
      hnot (hc.mono fun g hg => (mem_filter.mp hg).1)
    have hfilter : (pre ++ [f]).filter Short = pre ++ [f] :=
      filter_eq_self.mpr fun g hg => decide_eq_true (hpieces g hg).short
    obtain ⟨d, hd⟩ := (ipintr_step hle (holds_afterFrags hD hparts)
      (ordered_afterFrags hle hparts hnot') hnot' hf.part).1 (by rw [hfilter]; exact hcovers)
    obtain ⟨-, hdata, hlen⟩ := hsound d hd
    refine ⟨d, ?_, ?_, hdata⟩
    · rw [hd, ipintr_done hD hf.part hd]
      rfl
    · rw [hlen, toInt_short, hnat, if_pos (by omega)]

end Bsd386.Net.Ip
