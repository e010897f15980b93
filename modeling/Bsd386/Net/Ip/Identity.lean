import Bsd386.Net.Ip.Fragment
import Bsd386.Net.Ip.Pieces

/-!
# Fragmentation and reassembly

What `ip_output` makes of a packet that does not fit the interface, and what the other end makes of
the fragments.
-/

namespace Bsd386.Net.Ip

open List Lib
open BitVec (eq_of_toNat_eq ofNat or_zero toNat_ofNat)

variable {k len n x : ℕ} {f : Frag} {after : UInt8} {d : Dgram} {r : Bool} {frs : List Frag}

/-! ## The offset field -/

/-- `ip_off` with the reserved bit `r`, `IP_MF` as `m` says, and an offset of `k` words.
Source: ip.h struct ip -/
def offField (r m : Bool) (k : ℕ) : BitVec 16 :=
  BitVec.ofNat 16 ((if r then 32768 else 0) + (if m then 8192 else 0) + k)

section

variable (r m : Bool) (hk : k < 8192)
include hk

theorem offField_eq :
    offField r m k =
      (BitVec.ofNat 3 ((if r then 4 else 0) + (if m then 1 else 0)) ++ BitVec.ofNat 13 k :
        BitVec 16) := by
  apply eq_of_toNat_eq
  rw [BitVec.toNat_append, ← Nat.shiftLeft_add_eq_or_of_lt (BitVec.isLt _), Nat.shiftLeft_eq,
    offField, toNat_ofNat, toNat_ofNat, toNat_ofNat]
  split <;> split <;> omega

theorem offField_and_not_mf :
    offField r m k &&& ~~~ipMf = offField r false k := by
  rw [offField_eq r m hk, offField_eq r false hk,
    show ~~~ipMf = (6#3 ++ BitVec.allOnes 13 : BitVec 16) from by decide, BitVec.and_append,
    BitVec.and_allOnes]
  congr 1
  cases r <;> cases m <;> decide

theorem offField_and_mf :
    offField r m k &&& ipMf ≠ 0 ↔ m = true := by
  rw [offField_eq r m hk, show ipMf = (1#3 ++ 0#13 : BitVec 16) from by decide, BitVec.and_append,
    BitVec.and_zero]
  cases r <;> cases m <;> decide

theorem offField_or_mf :
    offField r m k ||| ipMf = offField r true k := by
  rw [offField_eq r m hk, offField_eq r true hk,
    show ipMf = (1#3 ++ 0#13 : BitVec 16) from by decide, BitVec.or_append, or_zero]
  congr 1
  cases r <;> cases m <;> decide

theorem offField_or_reserved :
    offField false m k ||| (if r then 0x8000#16 else 0#16) = offField r m k := by
  rw [offField_eq false m hk, offField_eq r m hk,
    show (if r then 0x8000#16 else 0#16) =
      ((if r then 4#3 else 0#3) ++ 0#13 : BitVec 16) from by cases r <;> decide,
    BitVec.or_append, or_zero]
  congr 1
  cases r <;> cases m <;> decide

end

theorem ofNat_add_offField (r m : Bool) (j k : ℕ) :
    BitVec.ofNat 16 j + offField r m k = offField r m (k + j) := by
  apply eq_of_toNat_eq
  rw [BitVec.toNat_add, offField, offField, toNat_ofNat, toNat_ofNat,
    toNat_ofNat]
  omega

theorem exists_offField {x : BitVec 16} (hdf : x &&& ipDf = 0) :
    ∃ r m, x = offField r m (x.toNat % 8192) := by
  have hbit : x.getLsbD 14 = false := by
    rw [show ipDf = BitVec.twoPow 16 14 from by decide, BitVec.and_twoPow] at hdf
    by_contra h
    rw [if_pos (by simpa using h)] at hdf
    exact absurd hdf (by decide)
  rw [BitVec.getLsbD, Nat.testBit_eq_decide_div_mod_eq, decide_eq_false_iff_not] at hbit
  refine ⟨decide (32768 ≤ x.toNat), decide (x.toNat / 8192 % 2 = 1), ?_⟩
  apply eq_of_toNat_eq
  rw [offField, toNat_ofNat]
  simp only [decide_eq_true_eq]
  split <;> split <;> omega

theorem sent_off (r : Bool) (D : List UInt8) (hf : f.start < 65536) :
    (sent r D f).off = offField r (decide (f.start + f.len < D.length)) (f.start / 8) := by
  have hk : f.start / 8 < 8192 := by omega
  have hplain : ofNat 16 (f.start / 8) = offField false false (f.start / 8) := by
    rw [offField]
    simp
  have hpacket : (packetOf D f).off =
      offField false (decide (f.start + f.len < D.length)) (f.start / 8) := by
    rw [packetOf]
    rw [hplain]
    by_cases hlt : f.start + f.len < D.length
    · rw [if_pos hlt, BitVec.or_comm, offField_or_mf _ _ hk, decide_eq_true hlt]
    · rw [if_neg hlt, decide_eq_false hlt]
      exact BitVec.zero_or
  rw [sent, hpacket]
  exact offField_or_reserved r _ hk

/-! ## The packet -/

namespace Dgram

/-- Where the payload begins in the datagram it belongs to.
Source: ip.h struct ip -/
def start (d : Dgram) : ℕ := 8 * (d.off.toNat % 8192)

/-- There is more of the datagram behind the payload.
Source: ip.h struct ip -/
def more (d : Dgram) : Bool := d.off &&& ipMf ≠ 0

/-- The packet is not itself a fragment. Source: ipintr -/
def whole (d : Dgram) : Prop := d.start = 0 ∧ d.more = false

instance (d : Dgram) : Decidable d.whole := inferInstanceAs (Decidable (_ ∧ _))

/-- A datagram the packet is a part of. -/
def around (d : Dgram) : List UInt8 :=
  List.replicate d.start 0 ++ d.payload ++ if d.more then [0] else []

/-- A packet as `ip_output` gets it: a header of 20 to 60 bytes, with options that are accepted,
`ip_len` the length of the chain, and within a datagram that has at most 65535 bytes with its
header.
Source: ip_output -/
structure Valid (after : UInt8) (d : Dgram) : Prop where
  hl_ge : 5 ≤ d.hl
  hl_le : d.hl ≤ 15
  options : accepted after d.opts = true
  len_eq : d.len.toNat = d.m.flatten.length
  hlen_le : d.hlen ≤ d.len.toNat
  limit : d.start + d.payload.length + (if d.more then 1 else 0) ≤ 65515

theorem Valid.lengths (hd : d.Valid after) :
    d.m.flatten.length = d.len.toNat ∧ d.payload.length = d.len.toNat - d.hlen ∧
      20 ≤ d.hlen ∧ d.hlen ≤ 60 ∧ d.opts.length = d.hlen - 20 := by
  have hge := hd.hl_ge
  have hle := hd.hl_le
  have hlen := hd.len_eq
  have hfit := hd.hlen_le
  have hdef : d.hlen = d.hl * 4 := rfl
  refine ⟨hlen.symm, ?_, by omega, by omega, ?_⟩
  · rw [payload, length_drop, ← hlen]
  · rw [opts, length_drop, length_take, ← hlen, Nat.min_eq_left hfit]

theorem length_around (d : Dgram) :
    d.around.length = d.start + d.payload.length + if d.more then 1 else 0 := by
  rw [around, length_append, length_append, length_replicate]
  cases d.more <;> rfl

theorem slice_around (d : Dgram) (h : x + n ≤ d.payload.length) :
    (d.around.drop (d.start + x)).take n = (d.payload.drop x).take n := by
  rw [around, append_assoc, ← drop_drop, drop_left' length_replicate,
    drop_append_of_le_length (by omega), take_append_of_le_length]
  rw [length_drop]
  omega

end Dgram

/-! ## One fragment -/

/-- What `ip_output` hands to the interface is the packet that carries `f`, with its length where
lengths are.
Source: ip_output -/
structure Carrying (r : Bool) (D : List UInt8) (p : Dgram) (f : Frag) : Prop where
  packet_eq : p.toPacket = sent r D f
  length_eq : p.m.flatten.length = f.hlen + f.len
  pkthdr_eq : p.pkthdrLen = f.hlen + f.len

theorem exists_mhlen (hd : d.Valid after) :
    ∃ dp, (if 20 < d.hlen then ipOptcopy after d.opts else some []) = some dp ∧
      dp.length + 20 ≤ d.hlen ∧
      (if 20 < d.hlen then (dp.length + 20) / 4 else d.hl) * 4 = dp.length + 20 := by
  obtain ⟨-, -, hge, hle, hopts⟩ := hd.lengths
  have hdef : d.hlen = d.hl * 4 := rfl
  by_cases h : 20 < d.hlen
  · obtain ⟨dp, hdp, hlen, hword⟩ := optcopy_spec hd.options (by omega)
    rw [if_pos h]
    refine ⟨dp, hdp, by omega, ?_⟩
    rw [if_pos h]
    omega
  rw [if_neg h]
  refine ⟨[], rfl, ?_, ?_⟩
  · rw [length_nil]
    omega
  · rw [if_neg h, length_nil]
    omega

theorem fragOff_eq (hd : d.Valid after)
    (hoff : d.off = offField r d.more (d.off.toNat % 8192)) (h8 : 8 ∣ x)
    (hle : x + n ≤ d.payload.length) (hl : ℕ) :
    fragOff d (d.hlen + x) (decide (x + n = d.payload.length)) =
      (sent r d.around ⟨d.start + x, n, hl⟩).off := by
  have hlimit := hd.limit
  have hstart : d.start = 8 * (d.off.toNat % 8192) := rfl
  obtain ⟨k, hk⟩ : ∃ k, d.off.toNat % 8192 = k := ⟨_, rfl⟩
  rw [hk] at hoff hstart
  have hbound : k + x / 8 < 8192 := by omega
  have hk' : k < 8192 := by omega
  have hmf : d.off &&& ipMf ≠ 0 ↔ d.more = true := by
    rw [Dgram.more]
    exact decide_eq_true_iff.symm
  have hclear : ofNat 16 (x / 8) + (d.off &&& ~~~ipMf) = offField r false (k + x / 8) := by
    rw [hoff, offField_and_not_mf r _ hk', ofNat_add_offField]
  have hdiv : (d.start + x) / 8 = k + x / 8 := by omega
  have hlast : d.start + x + n < d.around.length ↔ d.more = true ∨ x + n ≠ d.payload.length := by
    rw [d.length_around]
    cases d.more with
    | false => simp only [Bool.false_eq_true, if_false, false_or]; omega
    | true => simp only [if_true, true_or, iff_true]; omega
  rw [sent_off r _ (by dsimp only; omega)]
  rw [hdiv, fragOff, Nat.add_sub_cancel_left, hclear]
  by_cases hm : d.more = true
  · have hdec : decide (d.start + x + n < d.around.length) = true :=
      decide_eq_true (hlast.mpr (.inl hm))
    rw [if_pos (hmf.mpr hm), offField_or_mf r _ hbound, offField_or_mf r _ hbound, hdec, ite_self]
  rw [if_neg (fun h => hm (hmf.mp h)), offField_or_mf r _ hbound]
  by_cases hend : x + n = d.payload.length
  · rw [decide_eq_true hend, if_pos rfl, decide_eq_false fun h => (hlast.mp h).elim hm fun h => h hend]
  · rw [decide_eq_false hend, if_neg (by simp), decide_eq_true (hlast.mpr (.inr hend))]

/-- **One fragment**: a new header and a copy of its part of the payload, as the receiver's model
has it. -/
theorem makeFrag_spec (hd : d.Valid after)
    (hoff : d.off = offField r d.more (d.off.toNat % 8192)) {dp : List UInt8}
    (hdp : (if 20 < d.hlen then ipOptcopy after d.opts else some []) = some dp)
    (hhl : (if 20 < d.hlen then (dp.length + 20) / 4 else d.hl) * 4 = dp.length + 20)
    (h8 : 8 ∣ x) (hle : x + n ≤ d.payload.length) :
    ∃ p, makeFrag after d (d.hlen + x) n (decide (x + n = d.payload.length)) = .ok p ∧
      Carrying r d.around p ⟨d.start + x, n, dp.length + 20⟩ := by
  obtain ⟨hm, hpay, hge, -, -⟩ := hd.lengths
  have hfit := hd.hlen_le
  obtain ⟨next, hnext, hflat⟩ := flatten_mCopy
    (by omega : d.hlen + x + n ≤ d.m.flatten.length)
  have hdata : next.flatten = (d.payload.drop x).take n := by
    rw [hflat, ← drop_drop]
    rfl
  have hsize : next.flatten.length = n := by
    rw [hdata, length_take, length_drop]
    omega
  have hhead : (d.m.flatten.take 20 ++ dp).length = dp.length + 20 := by
    rw [length_append, length_take]
    omega
  rw [makeFrag, hdp]
  rw [hnext, fragOff_eq hd hoff h8 hle (dp.length + 20)]
  refine ⟨_, rfl, ?_, ?_, rfl⟩
  · rw [Dgram.toPacket, Dgram.payload, Dgram.hlen]
    rw [hhl, flatten_cons, drop_left' hhead, hdata, ← d.slice_around hle, Nat.add_comm n]
    rfl
  · rw [flatten_cons, length_append, hhead, hsize]

/-! ## All fragments -/

/-- The part from `x` to `stop` in pieces of `len` bytes. The first argument after these bounds
their number. -/
def pieces (hl len stop : ℕ) : ℕ → ℕ → List Frag
  | 0, _ => []
  | n + 1, x =>
    if x < stop then
      ⟨x, min len (stop - x), hl⟩ :: pieces hl len stop n (x + min len (stop - x))
    else []

theorem cuts_pieces {hl stop : ℕ} (hlen : 0 < len) (hx : x ≤ stop) (hn : stop - x ≤ n) :
    Cuts x stop (pieces hl len stop n x) := by
  induction n generalizing x with
  | zero =>
    have heq : x = stop := by omega
    exact heq
  | succ n ih =>
    rw [pieces]
    by_cases hlt : x < stop
    · rw [if_pos hlt]
      have hpos : 0 < min len (stop - x) := by omega
      exact ⟨rfl, hpos, ih (x := x + min len (stop - x)) (by omega) (by omega)⟩
    · rw [if_neg hlt]
      have heq : x = stop := by omega
      exact heq

theorem mem_pieces {hl stop : ℕ} (hf : f ∈ pieces hl len stop n x) :
    f.hlen = hl ∧ f.len ≤ len ∧ (f.start + f.len < stop → f.len = len) ∧ x ≤ f.start ∧
      len ∣ f.start - x := by
  induction n generalizing x with
  | zero => exact absurd hf not_mem_nil
  | succ n ih =>
    rw [pieces] at hf
    by_cases hlt : x < stop
    · rw [if_pos hlt] at hf
      rcases mem_cons.mp hf with rfl | hf
      · refine ⟨rfl, Nat.min_le_left _ _, fun h => ?_, le_rfl, ?_⟩
        · dsimp only at h ⊢
          omega
        · rw [Nat.sub_self]
          exact Nat.dvd_zero len
      by_cases hend : len < stop - x
      · rw [Nat.min_eq_left hend.le] at hf
        obtain ⟨h1, h2, h3, h4, h5⟩ := ih hf
        refine ⟨h1, h2, h3, by omega, ?_⟩
        have hsplit : f.start - x = f.start - (x + len) + len := by omega
        rw [hsplit]
        exact Nat.dvd_add h5 (Nat.dvd_refl len)
      · -- no piece follows the last one
        rw [Nat.min_eq_right (by omega)] at hf
        cases n with
        | zero => exact absurd hf not_mem_nil
        | succ n =>
          rw [pieces, if_neg (by omega)] at hf
          exact absurd hf not_mem_nil
    · rw [if_neg hlt] at hf
      exact absurd hf not_mem_nil

theorem fragLoop_spec (hd : d.Valid after)
    (hoff : d.off = offField r d.more (d.off.toNat % 8192)) {dp : List UInt8}
    (hdp : (if 20 < d.hlen then ipOptcopy after d.opts else some []) = some dp)
    (hhl : (if 20 < d.hlen then (dp.length + 20) / 4 else d.hl) * 4 = dp.length + 20)
    (hlen : 0 < len) (h8 : 8 ∣ len) (hx : x ≤ d.payload.length)
    (hx8 : 8 ∣ x ∨ x = d.payload.length) (hn : d.payload.length - x < n) :
    ∃ ps, fragLoop after d len n (d.hlen + x) = .ok ps ∧
      List.Forall₂ (Carrying r d.around) ps
        (pieces (dp.length + 20) len (d.start + d.payload.length) n (d.start + x)) := by
  obtain ⟨-, hpay, -, -, -⟩ := hd.lengths
  induction n generalizing x with
  | zero => omega
  | succ n ih =>
    rw [fragLoop, pieces]
    by_cases hlt : x < d.payload.length
    · have h8x : 8 ∣ x := hx8.resolve_right (by omega)
      rw [if_pos (by omega : d.hlen + x < d.len.toNat),
        if_pos (by omega : d.start + x < d.start + d.payload.length)]
      obtain ⟨k, hk⟩ : ∃ k, min len (d.payload.length - x) = k := ⟨_, rfl⟩
      have hmin : min len (d.start + d.payload.length - (d.start + x)) = k := by omega
      have hlast : decide (d.len.toNat ≤ d.hlen + x + len) =
          decide (x + k = d.payload.length) := decide_eq_decide.mpr (by omega)
      have hsize : (if d.len.toNat ≤ d.hlen + x + len then d.len.toNat - (d.hlen + x)
          else len) = k := by
        split <;> omega
      obtain ⟨p, hp, hcarry⟩ := makeFrag_spec hd hoff hdp hhl h8x
        (by omega : x + k ≤ d.payload.length)
      obtain ⟨ps, hps, hall⟩ := ih (x := x + k) (by omega) (by
        by_cases hend : x + k = d.payload.length
        · exact .inr hend
        · have hkl : k = len := by omega
          rw [hkl]
          exact .inl (Nat.dvd_add h8x h8)) (by omega)
      dsimp only
      rw [hsize, hlast, hp, Nat.add_assoc d.hlen, hps, hmin, Nat.add_assoc d.start]
      exact ⟨_, rfl, List.Forall₂.cons hcarry hall⟩
    · rw [if_neg (by omega), if_neg (by omega)]
      exact ⟨[], rfl, List.Forall₂.nil⟩

/-- How much of the payload a fragment that is not the last one has.
Source: ip_output -/
def fragSize (mtu : BitVec 16) (d : Dgram) : ℕ := ((mtu.toInt - d.hlen) / 8 * 8).toNat

theorem first_spec (hd : d.Valid after)
    (hoff : d.off = offField r d.more (d.off.toNat % 8192))
    (hn : n < d.payload.length) :
    Carrying r d.around
      ⟨d.hl, d.off ||| ipMf, BitVec.ofNat 16 (d.hlen + n), d.hlen + n,
        mAdj d.m (d.hlen + n - d.len.toNat)⟩ ⟨d.start, n, d.hlen⟩ := by
  obtain ⟨hm, hpay, -, -, -⟩ := hd.lengths
  have hstart : d.start = 8 * (d.off.toNat % 8192) := rfl
  have hflat : (mAdj d.m ((d.hlen : ℤ) + n - d.len.toNat)).flatten = d.m.flatten.take (d.hlen + n) := by
    rw [flatten_mAdj, if_neg (by omega), hm]
    congr 1
    omega
  have hflag : d.off ||| ipMf = (sent r d.around ⟨d.start, n, d.hlen⟩).off := by
    have hmore : d.start + n < d.around.length := by
      rw [d.length_around]
      omega
    rw [sent_off r _ (by dsimp only; omega)]
    rw [decide_eq_true hmore, hoff, offField_or_mf r _ (by omega), hstart,
      Nat.mul_div_cancel_left _ (by omega)]
  refine ⟨?_, ?_, rfl⟩
  · rw [Dgram.toPacket, Dgram.payload, Dgram.hlen]
    rw [show d.hl * 4 = d.hlen from rfl, hflag, hflat, drop_take, Nat.add_sub_cancel_left]
    have hslice := d.slice_around (x := 0) (n := n) (by omega)
    rw [Nat.add_zero, drop_zero, Dgram.payload] at hslice
    rw [← hslice]
    rfl
  · rw [hflat, length_take]
    dsimp only
    omega

theorem sendit_spec {mtu : BitVec 16} (hd : d.Valid after)
    (hbig : mtu.toInt < d.len.toNat) (hdf : d.off &&& ipDf = 0) (h8 : 8 ≤ fragSize mtu d) :
    ∃ r ps frs, sendit after mtu d = .ok ps ∧ List.Forall₂ (Carrying r d.around) ps frs ∧
      Cuts d.start (d.start + d.payload.length) frs ∧
      ∀ f ∈ frs, IsPiece d.around f ∧ ((f.hlen + f.len : ℕ) : ℤ) ≤ mtu.toInt ∧
        f.len ≤ fragSize mtu d ∧ fragSize mtu d ∣ f.start - d.start ∧
        (f.start + f.len < d.start + d.payload.length → f.len = fragSize mtu d) := by
  obtain ⟨hm, hpay, hge, hle, -⟩ := hd.lengths
  have hstart : d.start = 8 * (d.off.toNat % 8192) := rfl
  obtain ⟨r, m, hoff⟩ := exists_offField hdf
  have hmore : d.more = m := by
    have hiff := offField_and_mf r m (k := d.off.toNat % 8192) (by omega)
    rw [← hoff] at hiff
    rw [Dgram.more]
    cases m with
    | false => exact decide_eq_false fun h => absurd (hiff.mp h) (by simp)
    | true => exact decide_eq_true (hiff.mpr rfl)
  rw [← hmore] at hoff
  obtain ⟨dp, hdp, hmhlen, hhl⟩ := exists_mhlen hd
  obtain ⟨len, hlen⟩ : ∃ len, fragSize mtu d = len := ⟨_, rfl⟩
  rw [hlen] at h8 ⊢
  -- an interface takes at most 32767 bytes, and not all of the packet
  have hint : (mtu.toInt - d.hlen) / 8 * 8 = (len : ℤ) := by
    rw [fragSize] at hlen
    omega
  have hmtu : mtu.toInt ≤ 32767 := by
    have h := toInt_short mtu
    split at h <;> omega
  have hlen8 : 8 ∣ len := by omega
  have hlt : len < d.payload.length := by omega
  obtain ⟨ps, hps, hall⟩ := fragLoop_spec hd hoff hdp hhl (by omega) hlen8 hlt.le (.inl hlen8)
    (by omega : d.payload.length - len < d.len.toNat)
  obtain ⟨rest, hrest⟩ : ∃ rest, pieces (dp.length + 20) len (d.start + d.payload.length) d.len.toNat
    (d.start + len) = rest := ⟨_, rfl⟩
  have hcuts : Cuts (d.start + len) (d.start + d.payload.length) rest := by
    rw [← hrest]
    exact cuts_pieces (by omega) (by omega) (by omega)
  rw [hrest] at hall
  refine ⟨r, _, ⟨d.start, len, d.hlen⟩ :: rest, ?_, List.Forall₂.cons (first_spec hd hoff hlt) hall,
    ⟨rfl, (by omega : 0 < len), hcuts⟩, ?_⟩
  · rw [sendit, if_neg (by omega), if_neg (fun h => h hdf)]
    dsimp only
    rw [hint, if_neg (by omega), Int.toNat_natCast, hps]
  · have haround := d.length_around
    intro f hf
    rcases mem_cons.mp hf with rfl | hf
    · refine ⟨⟨⟨⟨_, hstart⟩, ?_, ?_, ?_⟩, ?_, ?_⟩, ?_, le_rfl, ?_, fun _ => rfl⟩
      · dsimp only
        omega
      · exact .inr (by dsimp only; omega)
      · dsimp only
        omega
      · exact (by omega : d.hlen + len < 32768)
      · exact (by omega : 0 < len)
      · dsimp only
        omega
      · dsimp only
        rw [Nat.sub_self]
        exact Nat.dvd_zero len
    · obtain ⟨hbound, hpos, hstop⟩ := hcuts.bounds.2 f hf
      rw [← hrest] at hf
      obtain ⟨hhlen, hflen, hfull, hfrom, hdvd⟩ := mem_pieces hf
      have hdvd' : len ∣ f.start - d.start := by
        rw [show f.start - d.start = f.start - (d.start + len) + len from by omega]
        exact Nat.dvd_add hdvd (Nat.dvd_refl len)
      have h8f : 8 ∣ f.start := by
        rw [show f.start = d.start + (f.start - d.start) from by omega]
        exact Nat.dvd_add ⟨_, hstart⟩ (Nat.dvd_trans hlen8 hdvd')
      have hshort : f.hlen + f.len < 32768 := by omega
      exact ⟨⟨⟨h8f, by omega, .inl (by omega), by omega⟩, hshort, hpos⟩, by omega, hflen, hdvd',
        hfull⟩

/-! ## Back at the other end -/

/-- The packets fit the interface, and have their length in `ip_len` and `m_pkthdr.len`.
Source: ip_output -/
def Fits (mtu : BitVec 16) (ps : List Dgram) : Prop :=
  ∀ p ∈ ps, (p.m.flatten.length : ℤ) ≤ mtu.toInt ∧ p.len.toNat = p.m.flatten.length ∧
    p.pkthdrLen = p.m.flatten.length

/-- All but the last have a payload that is a multiple of 8.
Source: ip_output -/
def Aligned (ps : List Dgram) : Prop := ∀ p ∈ ps.dropLast, 8 ∣ p.payload.length

/-- In any order the packets give the payload of `d` back: as a datagram when `d` is not itself a
fragment, and in the queue, at its place, when it is.
Source: ip_reass -/
def Reproduces (d : Dgram) (ps : List Dgram) : Prop :=
  ∀ σ : List Dgram, σ.Perm ps →
    if d.whole then
      ∃ e, received (σ.map Dgram.toPacket) = (none, [e]) ∧ e.len.toInt = d.payload.length ∧
        e.data = d.payload
    else
      ∃ qs, received (σ.map Dgram.toPacket) = (some qs, []) ∧ Carries d.start d.payload qs

/-- The length of the datagram is positive as a `short`, or the fragments of a fragment do not begin
on both sides of byte 32768. -/
def InRange (mtu : BitVec 16) (d : Dgram) : Prop :=
  if d.whole then d.payload.length ≤ 32767
  else d.start < 32768 →
    d.start + (d.payload.length - 1) / fragSize mtu d * fragSize mtu d < 32768

theorem Cuts.starts_iff {a b : ℕ} (h : Cuts a b frs) (hab : a < b)
    (hlen : 0 < len) (hfrs : ∀ f ∈ frs, f.len ≤ len ∧ len ∣ f.start - a) (n : ℕ) :
    (∀ f ∈ frs, f.start < n) ↔ a + (b - a - 1) / len * len < n := by
  have hle : (b - a - 1) / len * len ≤ b - a - 1 := Nat.div_mul_le_self _ _
  constructor
  · intro hall
    obtain ⟨f, hf, hfrom, hto⟩ :=
      h.covers (x := a + (b - a - 1) / len * len) (Nat.le_add_right _ _) (by omega)
    obtain ⟨hflen, k, hk⟩ := hfrs f hf
    have hbounds := h.bounds.2 f hf
    -- the piece with that byte begins there
    have hmul : (b - a - 1) / len * len < (k + 1) * len := by
      rw [Nat.succ_mul, Nat.mul_comm k]
      omega
    have hq : (b - a - 1) / len ≤ k := Nat.lt_succ_iff.mp (Nat.lt_of_mul_lt_mul_right hmul)
    have hkl : (b - a - 1) / len * len ≤ k * len := Nat.mul_le_mul_right len hq
    have hstart := hall f hf
    rw [Nat.mul_comm] at hk
    omega
  · intro hlast f hf
    obtain ⟨hflen, k, hk⟩ := hfrs f hf
    have hbounds := h.bounds.2 f hf
    rw [Nat.mul_comm] at hk
    have hkq : k ≤ (b - a - 1) / len := (Nat.le_div_iff_mul_le hlen).mpr (by omega)
    have hkl : k * len ≤ (b - a - 1) / len * len := Nat.mul_le_mul_right len hkq
    omega

theorem Cuts.dropLast_lt {a b : ℕ} (h : Cuts a b frs)
    (hf : f ∈ frs.dropLast) : f.start + f.len < b := by
  rcases eq_nil_or_concat frs with rfl | ⟨init, l, rfl⟩
  · exact absurd hf not_mem_nil
  rw [concat_eq_append] at h hf
  rw [dropLast_concat] at hf
  have hl := mem_append_right init (mem_singleton.mpr (rfl : l = l))
  have hle := (pairwise_append.mp h.pairwise).2.2 f hf l (mem_singleton.mpr rfl)
  have hlast := h.bounds.2 l hl
  omega

theorem Carrying.lengths {D : List UInt8} {p : Dgram}
    (h : Carrying r D p f) (hlt : f.hlen + f.len < 65536) :
    p.len.toNat = p.m.flatten.length ∧ p.payload.length = f.len := by
  have hlen : p.len = (sent r D f).len := congrArg Packet.len h.packet_eq
  have hhlen : p.hlen = (sent r D f).hlen := congrArg Packet.hlen h.packet_eq
  constructor
  · rw [hlen, h.length_eq]
    exact Nat.mod_eq_of_lt hlt
  · rw [Dgram.payload, length_drop, h.length_eq, hhlen]
    exact Nat.add_sub_cancel_left _ _

theorem exists_carried {D : List UInt8} {ps : List Dgram}
    (h : List.Forall₂ (Carrying r D) ps frs) {p : Dgram} (hp : p ∈ ps) :
    ∃ f ∈ frs, Carrying r D p f := by
  induction h with
  | nil => exact absurd hp not_mem_nil
  | cons hpf _ ih =>
    rcases mem_cons.mp hp with rfl | hp
    · exact ⟨_, mem_cons_self, hpf⟩
    · obtain ⟨f, hf, hcarry⟩ := ih hp
      exact ⟨f, mem_cons_of_mem _ hf, hcarry⟩

theorem reproduces_iff {mtu : BitVec 16} (hd : d.Valid after)
    (hpos : 0 < d.payload.length) (h8 : 8 ≤ fragSize mtu d) {ps : List Dgram}
    (hall : List.Forall₂ (Carrying r d.around) ps frs)
    (hcuts : Cuts d.start (d.start + d.payload.length) frs)
    (hfrs : ∀ f ∈ frs, IsPiece d.around f ∧ f.len ≤ fragSize mtu d ∧
      fragSize mtu d ∣ f.start - d.start) :
    Reproduces d ps ↔ InRange mtu d := by
  have hlen := d.length_around
  have hlimit := hd.limit
  have hmap : ps.map Dgram.toPacket = frs.map (sent r d.around) := by
    have h : List.Forall₂ (· = ·) (ps.map Dgram.toPacket) (frs.map (sent r d.around)) :=
      forall₂_map_left_iff.mpr (forall₂_map_right_iff.mpr
        (hall.imp fun p f hpf => hpf.packet_eq))
    rwa [forall₂_eq_eq_eq] at h
  -- an order of the packets is an order of the pieces
  have horder : ∀ {σ : List Dgram}, σ.Perm ps →
      ∃ τ : List Frag, σ.map Dgram.toPacket = τ.map (sent r d.around) ∧ τ.Perm frs := by
    intro σ hσ
    have h := hσ.map Dgram.toPacket
    rw [hmap] at h
    have hcomp := (congrFun (congrFun (eq_map_comp_perm (sent r d.around))
      (σ.map Dgram.toPacket)) frs).mpr h
    exact hcomp
  have hpieces : ∀ f ∈ frs, IsPiece d.around f := fun f hf => (hfrs f hf).1
  by_cases hw : d.whole
  · obtain ⟨hs, hm⟩ := hw
    have haround : d.around = d.payload := by
      rw [Dgram.around, hs, hm]
      simp
    rw [InRange, if_pos ⟨hs, hm⟩]
    rw [hs, Nat.zero_add, ← haround] at hcuts
    have hiff : ∀ {τ : List Frag}, τ.Perm frs → _ := fun hτ =>
      received_all (by omega) hcuts hpieces (by rw [haround]; exact hpos) hτ r
    rw [haround] at hiff
    constructor
    · intro h
      have hid := h ps (List.Perm.refl ps)
      rw [if_pos ⟨hs, hm⟩, hmap, haround] at hid
      exact (hiff (List.Perm.refl frs)).mp hid
    · intro hle σ hσ
      obtain ⟨τ, hτ, hperm⟩ := horder hσ
      rw [if_pos ⟨hs, hm⟩, hτ, haround]
      exact (hiff hperm).mpr hle
  · have hpart : d.start ≠ 0 ∨ d.start + d.payload.length < d.around.length := by
      by_contra hno
      rw [not_or, not_not] at hno
      refine hw ⟨hno.1, ?_⟩
      cases hm : d.more with
      | false => rfl
      | true =>
        rw [hm, if_pos rfl] at hlen
        omega
    have hslice : (d.around.drop d.start).take (d.start + d.payload.length - d.start) = d.payload := by
      have h := d.slice_around (x := 0) (n := d.payload.length) (by omega)
      rw [Nat.add_zero, drop_zero, take_length] at h
      rw [Nat.add_sub_cancel_left]
      exact h
    have hstarts := hcuts.starts_iff (by omega) (by omega : 0 < fragSize mtu d)
      (fun f hf => (hfrs f hf).2) 32768
    rw [Nat.add_sub_cancel_left] at hstarts
    have hiff : ∀ {τ : List Frag}, τ.Perm frs → _ := fun hτ =>
      received_part (by omega) hcuts hpieces (by omega) (by omega) hpart hτ r
    rw [hslice, hstarts] at hiff
    rw [InRange, if_neg hw]
    constructor
    · intro h
      have hid := h ps (List.Perm.refl ps)
      rw [if_neg hw, hmap] at hid
      exact (hiff (List.Perm.refl frs)).mp hid
    · intro hle σ hσ
      obtain ⟨τ, hτ, hperm⟩ := horder hσ
      rw [if_neg hw, hτ]
      exact (hiff hperm).mpr hle

/-- A packet of 48 bytes with an option that is copied, in two mbufs. -/
def shortDgram : Dgram :=
  ⟨6, 0, 48, 48, [List.replicate 20 0 ++ [0x94, 4, 0, 0, 1, 2, 3], (List.range 21).map UInt8.ofNat]⟩

/-- A packet of 40020 bytes without options. -/
def longDgram : Dgram := ⟨5, 0, 40020, 40020, [List.replicate 20 0, List.replicate 40000 0]⟩

end Bsd386.Net.Ip
