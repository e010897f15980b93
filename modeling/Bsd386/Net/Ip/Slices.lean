import Bsd386.Net.Ip.Reass

/-!
# What the reassembly queue holds

Fragments of a datagram with payload `D` are 8 byte aligned slices of `D` (`IsFrag`). Whatever the
16 bit arithmetic does to the order of the queue, a fragment in it is a slice of `D` that lies
within one of the fragments received (`Slice`, `Within`): where a trim is computed from two
offsets of different sign it is not made, or the fragment is removed altogether.
-/

namespace Bsd386.Net.Ip

open Lib List BitVec

variable {D : List UInt8} {f : Frag} {frs : List Frag} {qs : List Ipasfrag}

/-! ## Fields of 16 bits -/

theorem toInt_short (x : BitVec 16) :
    x.toInt = if x.toNat < 32768 then (x.toNat : ℤ) else (x.toNat : ℤ) - 65536 := by
  rw [toInt_eq_toNat_cond]
  split <;> split <;> omega

theorem toNat_addShort (x : BitVec 16) (i : ℤ) (h0 : 0 ≤ (x.toNat : ℤ) + i)
    (h1 : (x.toNat : ℤ) + i < 65536) : ((addShort x i).toNat : ℤ) = x.toNat + i := by
  rw [addShort, toNat_add, toNat_ofInt]
  omega

/-! ## Fragments -/

/-- A fragment: which slice of the payload it carries, and the length of its header. -/
structure Frag where
  start : ℕ
  len : ℕ
  hlen : ℕ
deriving DecidableEq

/-- An 8 byte aligned slice of `D` that is not all of it; one that is not the last has a length that
is a multiple of 8. The header has 20 to 60 bytes and the packet a length of 16 bits.
Source: ip.h struct ip -/
structure IsFrag (D : List UInt8) (f : Frag) : Prop where
  aligned : 8 ∣ f.start
  stop_le : f.start + f.len ≤ D.length
  len_aligned : f.start + f.len = D.length ∨ 8 ∣ f.len
  proper : f.start ≠ 0 ∨ f.start + f.len < D.length
  hlen_ge : 20 ≤ f.hlen
  hlen_le : f.hlen ≤ 60
  total_lt : f.hlen + f.len < 65536

/-- What the arithmetic on fragments rests on: an 8 byte aligned slice of `D` that is not all of it,
in a packet whose length has 16 bits.
Source: ip.h struct ip -/
structure IsPart (D : List UInt8) (f : Frag) : Prop where
  aligned : 8 ∣ f.start
  stop_le : f.start + f.len ≤ D.length
  proper : f.start ≠ 0 ∨ f.start + f.len < D.length
  total_lt : f.hlen + f.len < 65536

theorem IsFrag.part (h : IsFrag D f) : IsPart D f :=
  ⟨h.aligned, h.stop_le, h.proper, h.total_lt⟩

/-- The packet that carries a fragment. Source: ip.h struct ip -/
def packetOf (D : List UInt8) (f : Frag) : Packet where
  hlen := f.hlen
  len := BitVec.ofNat 16 (f.hlen + f.len)
  off := (if f.start + f.len < D.length then ipMf else 0) ||| BitVec.ofNat 16 (f.start / 8)
  data := (D.drop f.start).take f.len

/-- The fragment as `ip_reass` gets it. Source: ipintr -/
def fragOf (D : List UInt8) (f : Frag) : Ipasfrag where
  off := BitVec.ofNat 16 f.start
  len := BitVec.ofNat 16 f.len
  mff := f.start + f.len < D.length
  data := (D.drop f.start).take f.len

/-- The length of the packet is positive as a `short`, so that `ipintr` does not drop it.
Source: ipintr -/
def Short (f : Frag) : Prop := f.hlen + f.len < 32768

instance (f : Frag) : Decidable (Short f) := inferInstanceAs (Decidable (_ < _))

/-- The fragments cover `D`. -/
def Covers (D : List UInt8) (frs : List Frag) : Prop :=
  ∀ x < D.length, ∃ f ∈ frs, f.start ≤ x ∧ x < f.start + f.len

theorem toNat_flagged (b : Bool) {k : ℕ} (hk : k < 8192) :
    ((if b then ipMf else 0) ||| BitVec.ofNat 16 k).toNat = (if b then 8192 else 0) + k := by
  have hk16 : k % 2 ^ 16 = k := Nat.mod_eq_of_lt (by omega)
  rw [toNat_or, toNat_ofNat, hk16]
  cases b with
  | false => simp
  | true => exact (Nat.two_pow_add_eq_or_of_lt (i := 13) hk 1).symm

theorem and_ipMf_ne_zero {x : BitVec 16} (hx : x.toNat < 16384) :
    x &&& ipMf ≠ 0 ↔ 8192 ≤ x.toNat := by
  have hbit : x &&& ipMf ≠ 0 ↔ x.getLsbD 13 = true := by
    rw [show ipMf = twoPow 16 13 from by decide, and_twoPow]
    split
    · next h => exact iff_of_true (by decide) h
    · next h => exact iff_of_false (fun hne => hne rfl) h
  rw [hbit, getLsbD, Nat.testBit_eq_decide_div_mod_eq]
  simp only [decide_eq_true_eq]
  omega

theorem and_not_ipDf_ne_zero {x : BitVec 16} (hx : x.toNat < 16384) (h0 : x.toNat ≠ 0) :
    x &&& ~~~ipDf ≠ 0 := by
  intro h
  have hmask : x &&& (~~~ipDf &&& 16383#16) = 0#16 := by
    rw [← BitVec.and_assoc, h]
    rfl
  have hnat := congrArg BitVec.toNat hmask
  rw [show ~~~ipDf &&& 16383#16 = 16383#16 from by decide, toNat_and] at hnat
  have hmod : x.toNat &&& 16383 = x.toNat % 16384 := Nat.and_two_pow_sub_one_eq_mod x.toNat 14
  rw [toNat_ofNat, toNat_ofNat, Nat.mod_eq_of_lt (by decide), hmod] at hnat
  omega

theorem packetOf_off (hD : D.length ≤ 65515) (hf : IsPart D f) :
    ((packetOf D f).off &&& ipMf ≠ 0 ↔ f.start + f.len < D.length) ∧
      (packetOf D f).off <<< 3 = BitVec.ofNat 16 f.start ∧
      (packetOf D f).off &&& ~~~ipDf ≠ 0 := by
  obtain ⟨k, hk⟩ := hf.aligned
  have hstop := hf.stop_le
  have hproper := hf.proper
  have hnat : (packetOf D f).off.toNat = (if f.start + f.len < D.length then 8192 else 0) + k := by
    have h := toNat_flagged (decide (f.start + f.len < D.length)) (k := k) (by omega)
    rw [show k = f.start / 8 from by omega] at h ⊢
    simpa [packetOf] using h
  obtain ⟨x, hx⟩ : ∃ x, (packetOf D f).off = x := ⟨_, rfl⟩
  rw [hx] at hnat ⊢
  have hlt : x.toNat < 16384 := by
    split at hnat <;> omega
  refine ⟨?_, ?_, ?_⟩
  · rw [and_ipMf_ne_zero hlt]
    split at hnat <;> omega
  · apply eq_of_toNat_eq
    rw [toNat_shiftLeft, toNat_ofNat, Nat.shiftLeft_eq]
    split at hnat <;> omega
  · apply and_not_ipDf_ne_zero hlt
    split at hnat <;> omega

theorem ipintr_packetOf (hD : D.length ≤ 65515) (hf : IsPart D f)
    (fp : Option (List Ipasfrag)) :
    ipintr true fp (packetOf D f) =
      if Short f then ipReass true fp (fragOf D f) else (fp, none) := by
  obtain ⟨hmf, hoff, hdf⟩ := packetOf_off hD hf
  have htotal := hf.total_lt
  have hlen : (packetOf D f).len.toNat = f.hlen + f.len := Nat.mod_eq_of_lt htotal
  have hint := toInt_short (packetOf D f).len
  rw [hlen] at hint
  have hdata : (packetOf D f).data.length = f.len := by
    have hstop := hf.stop_le
    rw [packetOf, length_take, length_drop]
    omega
  by_cases hs : Short f
  · rw [if_pos hs]
    have hlt : f.hlen + f.len < 32768 := hs
    rw [if_pos hlt] at hint
    have hshort : addShort (packetOf D f).len (-(f.hlen : ℤ)) = BitVec.ofNat 16 f.len := by
      apply eq_of_toNat_eq
      rw [toNat_ofNat]
      have := toNat_addShort (packetOf D f).len (-(f.hlen : ℤ)) (by omega) (by omega)
      omega
    have hmff : decide ((packetOf D f).off &&& ipMf ≠ 0) = decide (f.start + f.len < D.length) :=
      decide_eq_decide.mpr hmf
    have htake : (packetOf D f).data.take ((packetOf D f).len.toInt.toNat - f.hlen) =
        (D.drop f.start).take f.len := by
      rw [hint, Int.toNat_natCast, Nat.add_sub_cancel_left, take_of_length_le hdata.le]
      rfl
    have hfrag : decide (f.start + f.len < D.length) = true ∨ BitVec.ofNat 16 f.start ≠ 0 := by
      rcases hf.proper with hne | hlt
      · refine .inr fun h0 => hne ?_
        have hstop := hf.stop_le
        have hnat := congrArg BitVec.toNat h0
        rw [toNat_ofNat, Nat.mod_eq_of_lt (by omega)] at hnat
        exact hnat
      · exact .inl (decide_eq_true hlt)
    have hhlen : (packetOf D f).hlen = f.hlen := rfl
    rw [ipintr, hhlen, if_neg (by omega), if_neg (by omega)]
    simp only [if_neg hdf, hmff, hoff, htake, hshort]
    rw [if_pos hfrag]
    rfl
  · rw [if_neg hs]
    have hge : ¬f.hlen + f.len < 32768 := hs
    rw [if_neg hge] at hint
    rw [ipintr, if_pos]
    omega

/-! ## Slices -/

/-- A fragment in the queue is a slice of `D`. -/
structure Slice (D : List UInt8) (e : Ipasfrag) : Prop where
  len_le : e.len.toNat ≤ 32767
  stop_le : e.off.toNat + e.len.toNat ≤ D.length
  data_eq : e.data = (D.drop e.off.toNat).take e.len.toNat
  mff_iff : e.mff = true ↔ e.off.toNat + e.len.toNat < D.length

/-- A fragment in the queue lies within one of those received that `ipintr` did not drop. -/
def Within (frs : List Frag) (e : Ipasfrag) : Prop :=
  ∃ f ∈ frs, Short f ∧ f.start ≤ e.off.toNat ∧ e.off.toNat + e.len.toNat ≤ f.start + f.len

theorem slice_fragOf (hD : D.length ≤ 65515) (hf : IsPart D f)
    (hs : Short f) : Slice D (fragOf D f) ∧ (fragOf D f).off.toNat = f.start ∧
      (fragOf D f).len.toNat = f.len := by
  have hstop := hf.stop_le
  have hlt : f.hlen + f.len < 32768 := hs
  have hoff : (fragOf D f).off.toNat = f.start := Nat.mod_eq_of_lt (by omega)
  have hlen : (fragOf D f).len.toNat = f.len := Nat.mod_eq_of_lt (by omega)
  refine ⟨⟨?_, ?_, ?_, ?_⟩, hoff, hlen⟩
  · omega
  · omega
  · rw [hoff, hlen]
    rfl
  · rw [hoff, hlen]
    exact decide_eq_true_iff

theorem Slice.trim (hD : D.length ≤ 65515) {e : Ipasfrag} (he : Slice D e) {i : ℕ}
    (hi : i < e.len.toNat) : Slice D (ops.trim e i) ∧
      (ops.trim e i).off.toNat = e.off.toNat + i ∧ (ops.trim e i).len.toNat = e.len.toNat - i := by
  have hle := he.len_le
  have hstop := he.stop_le
  have hoff : (ops.trim e i).off.toNat = e.off.toNat + i := by
    have h := toNat_addShort e.off i (by omega) (by omega)
    exact_mod_cast h
  have hlen : (ops.trim e i).len.toNat = e.len.toNat - i := by
    have h := toNat_addShort e.len (-(i : ℤ)) (by omega) (by omega)
    have hdef : (ops.trim e i).len = addShort e.len (-(i : ℤ)) := rfl
    rw [hdef]
    omega
  refine ⟨⟨?_, ?_, ?_, ?_⟩, hoff, hlen⟩
  · omega
  · omega
  · have hdef : (ops.trim e i).data = e.data.drop i := rfl
    rw [hdef, hoff, hlen, he.data_eq, drop_take, drop_drop]
  · rw [hoff, hlen, show e.off.toNat + i + (e.len.toNat - i) = e.off.toNat + e.len.toNat from
      by omega]
    exact he.mff_iff

theorem Slice.trim_over (hD : D.length ≤ 65515) {p q : Ipasfrag}
    (hq : Slice D q ∧ Within frs q) (hpos : 0 < ops.beyond p q) (hlt : ops.beyond p q < ops.size q) :
    Slice D (ops.trim q (ops.beyond p q)) ∧ Within frs (ops.trim q (ops.beyond p q)) := by
  obtain ⟨hq, f, hf, hs, hle, hstop⟩ := hq
  obtain ⟨i, hi⟩ : ∃ i : ℕ, ops.beyond p q = i := ⟨(ops.beyond p q).toNat, by omega⟩
  have hsize : ops.size q = q.len.toNat := by
    have hlen := hq.len_le
    have h := toInt_short q.len
    rw [if_pos (by omega)] at h
    exact h
  rw [hi] at hlt ⊢
  obtain ⟨hslice, hoff, hlen⟩ := hq.trim hD (i := i) (by omega)
  exact ⟨hslice, f, hf, hs, by omega, by omega⟩

theorem insert_slices (hD : D.length ≤ 65515) {p : Ipasfrag}
    {r : List Ipasfrag} (hp : Slice D p ∧ Within frs p)
    (hqs : ∀ q ∈ qs, Slice D q ∧ Within frs q) (h : Reassembly.insert ops p qs = some r) :
    ∀ e ∈ r, Slice D e ∧ Within frs e :=
  Reassembly.insert_forall (fun _ _ _ hq hpos hlt => Slice.trim_over hD hq hpos hlt) hp hqs h

/-! ## A datagram that is returned -/

theorem contiguous_sound (hqs : ∀ q ∈ qs, Slice D q) {n : ℕ}
    {stop : ℤ} (h : contiguous n qs = some stop) :
    ∃ s : ℕ, stop = s ∧ n ≤ s ∧ qs.flatMap Ipasfrag.data = (D.drop n).take (s - n) ∧
      (∀ x, n ≤ x → x < s → ∃ q ∈ qs, q.off.toNat ≤ x ∧ x < q.off.toNat + q.len.toNat) ∧
      ∀ l, qs.getLast? = some l → l.off.toNat + l.len.toNat = s := by
  induction qs generalizing n with
  | nil =>
    rw [contiguous] at h
    refine ⟨n, (Option.some.inj h).symm, le_rfl, ?_, fun x hx hx' => ?_, fun l hl => ?_⟩
    · rw [Nat.sub_self, take_zero]
      rfl
    · omega
    · exact absurd hl (by simp)
  | cons q qs ih =>
    have hq := hqs q mem_cons_self
    have hlen := hq.len_le
    have hoffInt := toInt_short q.off
    have hlenInt := toInt_short q.len
    rw [if_pos (by omega)] at hlenInt
    rw [contiguous] at h
    split at h
    · next hoff =>
        have hn : q.off.toNat = n := by
          split at hoffInt <;> omega
        rw [hlenInt, ← Int.natCast_add] at h
        obtain ⟨s, hs, hle, hdata, hcov, hlast⟩ :=
          ih (fun e he => hqs e (mem_cons_of_mem q he)) h
        refine ⟨s, hs, by omega, ?_, fun x hx hx' => ?_, fun l hl => ?_⟩
        · rw [flatMap_cons, hdata, hq.data_eq, hn,
            show s - n = q.len.toNat + (s - (n + q.len.toNat)) from by omega, take_add,
            drop_drop]
        · by_cases hxq : x < n + q.len.toNat
          · exact ⟨q, mem_cons_self, by omega⟩
          · obtain ⟨e, he, hxe⟩ := hcov x (by omega) hx'
            exact ⟨e, mem_cons_of_mem q he, hxe⟩
        · cases qs with
          | nil =>
            obtain rfl : q = l := Option.some.inj hl
            rw [contiguous] at h
            have hstop := Option.some.inj h
            omega
          | cons q' qs =>
            rw [getLast?_cons_cons] at hl
            exact hlast l hl
    · exact absurd h (by simp)

/-- **Soundness of reassembly**: a datagram is returned only when the received fragments that were
not dropped cover `D`, and it is `D` then. -/
theorem checkComplete_sound
    (hqs : ∀ q ∈ qs, Slice D q ∧ Within frs q) (hne : qs ≠ []) {d : Datagram}
    (h : (checkComplete qs).2 = some d) :
    Covers D (frs.filter Short) ∧ d.data = D ∧ d.len = BitVec.ofNat 16 D.length := by
  rw [checkComplete] at h
  cases hcont : contiguous 0 qs with
  | none =>
    rw [hcont] at h
    exact absurd h (by simp)
  | some stop =>
    rw [hcont] at h
    obtain ⟨s, rfl, -, hdata, hcov, hlast⟩ :=
      contiguous_sound (n := 0) (fun q hq => (hqs q hq).1) hcont
    obtain ⟨l, hl⟩ : ∃ l, qs.getLast? = some l := ⟨_, getLast?_eq_some_getLast hne⟩
    have hslice := (hqs l (mem_of_getLast? hl)).1
    simp only [hl, Option.any_some] at h
    split at h
    · exact absurd h (by simp)
    next hmff =>
      have hs : s = D.length := by
        have hstop := hlast l hl
        have hle := hslice.stop_le
        rw [hslice.mff_iff] at hmff
        omega
      obtain rfl := Option.some.inj h
      refine ⟨fun x hx => ?_, ?_, ?_⟩
      · obtain ⟨q, hq, hxq⟩ := hcov x (Nat.zero_le x) (by omega)
        obtain ⟨-, f, hf, hshort, hle, hstop⟩ := hqs q hq
        exact ⟨f, mem_filter.mpr ⟨hf, decide_eq_true hshort⟩, by omega⟩
      · show qs.flatMap Ipasfrag.data = D
        rw [hdata, hs, Nat.sub_zero, drop_zero, take_length]
      · show BitVec.ofInt 16 s = BitVec.ofNat 16 D.length
        rw [hs, BitVec.ofInt_natCast]

end Bsd386.Net.Ip
