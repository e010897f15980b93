import Bsd386.Net.Slcompress.Decode

/-!
# One compressed frame at the receiver

A well-formed packet that goes compressed against the sender's saved header `cs`, delivered to a
receiver that has a copy of it (`Tracked`). `recvCompressed_frame` computes what the receiver
returns; `rebuilt_eq_iff` says when it is the packet, byte for byte:

* the byte of `th_off` with its unused bits and the two unused flags are those of `cs`,
* in a special case `cs` had no `TH_URG`,
* the header checksum is not `0xffff` (the receiver computes the other zero).

This is `Restorable cs ip`.
-/

namespace Bsd386.Net.Slcompress

open Lib.Bytes

/-- A TCP/IP packet as the sender may get it: in one piece, unfragmented, with both headers
complete and at most `MAX_HDR` bytes long, the right length, and a valid header checksum.
Source: sl_compress_tcp; ip.h; tcp.h -/
structure WellFormed (p : Buf) : Prop where
  version : (p.mem 0).toNat / 16 = 4
  hl : 5 ≤ ipHl p.mem
  proto : p.mem 9 = ipprotoTcp
  off : 5 ≤ thOff p.mem (th p.mem)
  fits : hdrLen p.mem ≤ p.len
  hdr : hdrLen p.mem ≤ maxHdr
  len : (ipLen p.mem).toNat = p.len
  frag : ipOff p.mem &&& 0x3fff = 0
  sum : fold (fold (wordSum p.mem (th p.mem / 2))) = 0xffff

theorem WellFormed.le_th {p : Buf} (hwf : WellFormed p) : 20 ≤ th p.mem := by
  have := hwf.hl
  unfold th
  omega

theorem WellFormed.th_add_le {p : Buf} (hwf : WellFormed p) : th p.mem + 20 ≤ hdrLen p.mem := by
  have := hwf.off
  unfold hdrLen
  unfold th at *
  omega

/-- The receiver's copy `r` of the sender's saved header `cs`: the same bytes, but for the cleared
checksum.
Source: sl_uncompress_tcp -/
structure Tracked (cs : Mem) (r : Rstate) : Prop where
  hl : 5 ≤ ipHl cs
  off : 5 ≤ thOff cs (th cs)
  fits : hdrLen cs ≤ maxHdr
  flags : thFlags cs (th cs) &&& thControl = thAckBit
  hlen : r.csHlen = hdrLen cs
  bytes : ∀ j, j < hdrLen cs → j ≠ 10 → j ≠ 11 → r.csHdr j = cs j
  sum : r.csHdr 10 = 0 ∧ r.csHdr 11 = 0

/-- What the code leaves out is as it was: the unused bits of the TCP header, in a special case
also `TH_URG`; and the checksum is one the receiver can compute.
Source: sl_compress_tcp, sl_uncompress_tcp -/
structure Restorable (cs ip : Mem) : Prop where
  off : cs (th ip + 12) = ip (th ip + 12)
  unused : thFlags cs (th ip) &&& 0xc0 = thFlags ip (th ip) &&& 0xc0
  urg : SpecialCase cs ip → thFlags cs (th ip) &&& thUrg = 0
  sum : ¬ (ip 10 = 0xff ∧ ip 11 = 0xff)

/-! ## The flags -/

theorem flags_eq_iff (x y : Byte) :
    x = y ↔ x &&& 0xc0 = y &&& 0xc0 ∧ x &&& thUrg = y &&& thUrg ∧ x &&& thPush = y &&& thPush ∧
      x &&& thControl = y &&& thControl := by
  constructor
  · rintro rfl
    exact ⟨rfl, rfl, rfl, rfl⟩
  · rintro ⟨h1, h2, h3, h4⟩
    have hsplit : ∀ z : Byte,
        z = (z &&& 0xc0) ||| (z &&& thUrg) ||| (z &&& thPush) ||| (z &&& thControl) := by
      decide
    rw [hsplit x, h1, h2, h3, h4, ← hsplit y]

theorem pushFlags_parts : ∀ (f : Byte) (p : Bool),
    pushFlags f p &&& 0xc0 = f &&& 0xc0 ∧ pushFlags f p &&& thUrg = f &&& thUrg ∧
      pushFlags f p &&& thPush = bit p thPush ∧ pushFlags f p &&& thControl = f &&& thControl := by
  decide

theorem urgentFlags_parts : ∀ (f : Byte) (u : Bool),
    urgentFlags f u &&& 0xc0 = f &&& 0xc0 ∧ urgentFlags f u &&& thUrg = bit u thUrg ∧
      urgentFlags f u &&& thPush = f &&& thPush ∧
      urgentFlags f u &&& thControl = f &&& thControl := by
  decide

theorem flags_bits : ∀ f : Byte,
    f &&& thPush = bit (decide (f &&& thPush ≠ 0)) thPush ∧
      f &&& thUrg = bit (decide (f &&& thUrg ≠ 0)) thUrg := by
  decide

theorem restoredFlags_eq_iff {cs ip : Mem} (hcs : thFlags cs (th ip) &&& thControl = thAckBit)
    (hip : thFlags ip (th ip) &&& thControl = thAckBit) :
    restoredFlags cs ip = thFlags ip (th ip) ↔
      thFlags cs (th ip) &&& 0xc0 = thFlags ip (th ip) &&& 0xc0 ∧
        (SpecialCase cs ip → thFlags cs (th ip) &&& thUrg = 0) := by
  obtain ⟨hp1, hp2, hp3, hp4⟩ :=
    pushFlags_parts (thFlags cs (th ip)) (pushSet ip (th ip))
  obtain ⟨hb1, hb2⟩ := flags_bits (thFlags ip (th ip))
  rw [flags_eq_iff]
  unfold restoredFlags
  by_cases hsp : SpecialCase cs ip
  · have hurg : thFlags ip (th ip) &&& thUrg = 0 := by
      have hset := hsp.1
      rw [urgSet] at hset
      rw [hb2, hset]
      rfl
    rw [if_pos hsp, hp1, hp2, hp3, hp4, hcs, hip, hurg, hb1]
    exact ⟨fun h => ⟨h.1, fun _ => h.2.1⟩, fun h => ⟨h.1, h.2 hsp, rfl, rfl⟩⟩
  · obtain ⟨hu1, hu2, hu3, hu4⟩ := urgentFlags_parts
      (pushFlags (thFlags cs (th ip)) (pushSet ip (th ip))) (urgSet ip (th ip))
    rw [if_neg hsp, hu1, hu2, hu3, hu4, hp1, hp3, hp4, hcs, hip, hb1, hb2]
    exact ⟨fun h => ⟨h.1, fun h' => absurd h' hsp⟩, fun h => ⟨h.1, rfl, rfl, rfl⟩⟩

/-! ## The checksum -/

theorem hostWord_eq_iff {g h : Mem} {k : ℕ} :
    hostWord g k = hostWord h k ↔ g k = h k ∧ g (k + 1) = h (k + 1) := by
  simp only [hostWord, ← BitVec.toNat_inj]
  omega

theorem hostWord_setIpSum {out : Mem} {n : ℕ} (hn : n ≤ 60) :
    hostWord (setIpSum out n) 10 = 65535 - fold (fold (wordSum out (n / 2))) := by
  have hle : fold (fold (wordSum out (n / 2))) ≤ 65535 := by
    apply fold_fold_le
    have := wordSum_le out (n / 2)
    omega
  obtain ⟨v, hv⟩ : ∃ v, fold (fold (wordSum out (n / 2))) = v := ⟨_, rfl⟩
  rw [hv] at hle ⊢
  simp only [setIpSum, hostWord, hv]
  rw [set8_apply_of_ne _ (by omega), set8_apply_self, set8_apply_self]
  have hnot : (~~~BitVec.ofNat 16 v).toNat = 65535 - v := by
    rw [BitVec.toNat_not, BitVec.toNat_ofNat, Nat.mod_eq_of_lt (by omega)]
  simp only [BitVec.extractLsb'_toNat, hnot, Nat.shiftRight_eq_div_pow]
  omega

theorem setIpSum_eq_iff {p : Buf} (hwf : WellFormed p) {out : Mem}
    (h₀ : out 10 = 0) (h1 : out 11 = 0)
    (hout : ∀ j, j < th p.mem → j ≠ 10 → j ≠ 11 → out j = p.mem j) :
    (setIpSum out (th p.mem) 10 = p.mem 10 ∧ setIpSum out (th p.mem) 11 = p.mem 11) ↔
      ¬ (p.mem 10 = 0xff ∧ p.mem 11 = 0xff) := by
  have hl := hwf.hl
  have hl' : ipHl p.mem < 16 := Nat.mod_lt _ (by omega)
  have ht : th p.mem = 4 * ipHl p.mem := rfl
  have hne : out 0 ≠ 0 := by
    rw [hout 0 (by omega) (by omega) (by omega)]
    intro h0
    have := hwf.version
    rw [h0] at this
    exact absurd this (by decide)
  have hsum : wordSum p.mem (th p.mem / 2) = wordSum out (th p.mem / 2) + hostWord p.mem 10 :=
    wordSum_eq_add (j := 5) (by omega) h₀ h1 fun j hj h10 h11 => hout j (by omega) h10 h11
  have hfold := hwf.sum
  rw [hsum] at hfold
  have hle := wordSum_le out (th p.mem / 2)
  have key := eq_complement_iff (wordSum_pos hne (n := th p.mem / 2) (by omega)) (by omega)
    (hostWord_lt p.mem 10) hfold
  rw [← hostWord_eq_iff (g := setIpSum out (th p.mem)) (h := p.mem) (k := 10),
    hostWord_setIpSum (by omega), eq_comm, key]
  simp only [hostWord, Nat.reduceAdd, ← BitVec.toNat_inj, show (0xff : Byte).toNat = 255 from rfl]
  omega

/-! ## The bytes that did not change -/

section unchanged

variable {cs ip : Mem}

theorem bcmpEq_apply {p q : Mem} {a n j : ℕ} (h : bcmpEq p q a n = true) (hj : a ≤ j)
    (hj' : j < a + n) : p j = q j := by
  have := of_decide_eq_true h (j - a) (by omega)
  rwa [Nat.add_sub_of_le hj] at this

theorem unchangedFields_len (h : unchangedFields cs ip = true) :
    th cs = th ip ∧ hdrLen cs = hdrLen ip := by
  simp only [unchangedFields, Bool.and_eq_true, beq_iff_eq] at h
  have h0 : ip 0 = cs 0 := (get16_inj h.1.1.1.1.1).1
  have hhl : ipHl cs = ipHl ip := by rw [ipHl, ← h0, ipHl]
  have hth : th cs = th ip := by rw [th, hhl, th]
  refine ⟨hth, ?_⟩
  rw [hdrLen, hhl, hth, ← h.1.1.2, hdrLen]

theorem unchangedFields_apply (h : unchangedFields cs ip = true) (hconv : conv ip = conv cs)
    {j : ℕ} (hj : j < hdrLen ip) (h1 : ¬ (2 ≤ j ∧ j < 6)) (h2 : j ≠ 10) (h3 : j ≠ 11)
    (h4 : ¬ (th ip + 4 ≤ j ∧ j < th ip + 20)) : cs j = ip j := by
  obtain ⟨hth, -⟩ := unchangedFields_len h
  simp only [unchangedFields, Bool.and_eq_true, Bool.or_eq_true, beq_iff_eq,
    decide_eq_true_eq] at h
  obtain ⟨⟨⟨⟨⟨hv, hfrag⟩, httl⟩, hoff⟩, hipopt⟩, htcpopt⟩ := h
  simp only [conv, Prod.mk.injEq] at hconv
  obtain ⟨hsrc, hdst, hports⟩ := hconv
  rw [hth] at hports
  have hlen : hdrLen ip = th ip + 4 * thOff ip (th ip) := by rw [hdrLen, th]; omega
  have ht : th ip = 4 * ipHl ip := rfl
  -- in the order of the header
  by_cases hj2 : j < 2
  · obtain rfl | rfl : j = 0 ∨ j = 0 + 1 := by omega
    · exact (get16_inj hv).1.symm
    · exact (get16_inj hv).2.symm
  by_cases hj8 : j < 8
  · obtain rfl | rfl : j = 6 ∨ j = 6 + 1 := by omega
    · exact (get16_inj hfrag).1.symm
    · exact (get16_inj hfrag).2.symm
  by_cases hj10 : j < 10
  · obtain rfl | rfl : j = 8 ∨ j = 8 + 1 := by omega
    · exact (get16_inj httl).1.symm
    · exact (get16_inj httl).2.symm
  by_cases hj16 : j < 16
  · exact (get32_inj hsrc j (by omega) (by omega)).symm
  by_cases hj20 : j < 20
  · exact (get32_inj hdst j (by omega) (by omega)).symm
  by_cases hjt : j < th ip
  · rcases hipopt with hle | hopt
    · omega
    · exact (bcmpEq_apply hopt (by omega) (by omega)).symm
  by_cases hjp : j < th ip + 4
  · exact (get32_inj hports j (by omega) (by omega)).symm
  · rcases htcpopt with hle | hopt
    · omega
    · exact (bcmpEq_apply hopt (by omega) (by omega)).symm

end unchanged

/-! ## The rebuilt packet -/

/-- The receiver's header before the checksum: the decoded copy with the packet's length.
Source: sl_uncompress_tcp -/
def newHeader (cs ip h : Mem) : Mem := overlay ip (restored cs ip h) 2 2

section rebuild

variable {cs : Mem} {p : Buf} {r : Rstate}

section

variable (hwf : WellFormed p) (htr : Tracked cs r) (hun : unchangedFields cs p.mem = true)
include hwf htr hun

theorem newHeader_apply (hconv : conv p.mem = conv cs) {j : ℕ} (hj : j < hdrLen p.mem) (h1 : j ≠ 10)
    (h2 : j ≠ 11) (h3 : j ≠ th p.mem + 12) (h4 : j ≠ th p.mem + 13) :
    newHeader cs p.mem r.csHdr j = p.mem j := by
  by_cases h23 : 2 ≤ j ∧ j < 2 + 2
  · exact overlay_apply_of_mem h23
  rw [newHeader, overlay_apply_of_notMem h23, restored, if_neg h4]
  split_ifs with hcoded
  · rfl
  · rw [htr.bytes j ((unchangedFields_len hun).2 ▸ hj) h1 h2]
    exact unchangedFields_apply hun hconv hj (by omega) h1 h2 (by omega)

theorem newHeader_rest :
    newHeader cs p.mem r.csHdr 10 = 0 ∧ newHeader cs p.mem r.csHdr 11 = 0 ∧
      newHeader cs p.mem r.csHdr (th p.mem + 12) = cs (th p.mem + 12) ∧
      newHeader cs p.mem r.csHdr (th p.mem + 13) = restoredFlags cs p.mem := by
  have h20 := hwf.le_th
  have hlen := hwf.th_add_le
  simp only [newHeader]
  refine ⟨?_, ?_, ?_, ?_⟩
  · rw [overlay_apply_of_notMem (by omega), restored, if_neg (by omega), if_neg (by omega)]
    exact htr.sum.1
  · rw [overlay_apply_of_notMem (by omega), restored, if_neg (by omega), if_neg (by omega)]
    exact htr.sum.2
  · rw [overlay_apply_of_notMem (by omega), restored, if_neg (by omega), if_neg (by omega)]
    exact htr.bytes _ ((unchangedFields_len hun).2 ▸ (by omega)) (by omega) (by omega)
  · rw [overlay_apply_of_notMem (by omega), restored, if_pos rfl]

/-- **When the rebuilt packet is the packet.** `out` has the new header in front of the packet's
data; with its checksum computed it is the packet, byte for byte, exactly if the packet is
restorable. -/
theorem rebuilt_eq_iff (hconv : conv p.mem = conv cs)
    (hflags : thFlags p.mem (th p.mem) &&& thControl = thAckBit) {out : Mem}
    (hhdr : ∀ j, j < hdrLen p.mem → out j = newHeader cs p.mem r.csHdr j)
    (hdata : ∀ j, hdrLen p.mem ≤ j → j < p.len → out j = p.mem j) :
    (∀ j, j < p.len → setIpSum out (th p.mem) j = p.mem j) ↔ Restorable cs p.mem := by
  have hlen := hwf.th_add_le
  have hfits := hwf.fits
  obtain ⟨hn10, hn11, hn12, hn13⟩ := newHeader_rest hwf htr hun
  have hcsflags : thFlags cs (th p.mem) &&& thControl = thAckBit := by
    rw [← (unchangedFields_len hun).1]
    exact htr.flags
  have hsum := setIpSum_eq_iff hwf ((hhdr 10 (by omega)).trans hn10)
    ((hhdr 11 (by omega)).trans hn11) fun j hj h1 h2 => by
      rw [hhdr j (by omega)]
      exact newHeader_apply hwf htr hun hconv (by omega) h1 h2 (by omega) (by omega)
  have hother : ∀ j, j ≠ 10 → j ≠ 11 → setIpSum out (th p.mem) j = out j := by
    intro j h1 h2
    simp only [setIpSum]
    rw [set8_apply_of_ne _ h2, set8_apply_of_ne _ h1]
  have h12 : setIpSum out (th p.mem) (th p.mem + 12) = cs (th p.mem + 12) := by
    rw [hother _ (by omega) (by omega), hhdr _ (by omega), hn12]
  have h13 : setIpSum out (th p.mem) (th p.mem + 13) = restoredFlags cs p.mem := by
    rw [hother _ (by omega) (by omega), hhdr _ (by omega), hn13]
  constructor
  · intro h
    have hfl := (restoredFlags_eq_iff hcsflags hflags).mp (h13.symm.trans (h _ (by omega)))
    exact ⟨h12.symm.trans (h _ (by omega)), hfl.1, hfl.2,
      hsum.mp ⟨h 10 (by omega), h 11 (by omega)⟩⟩
  · intro hres j hj
    obtain ⟨hs10, hs11⟩ := hsum.mpr hres.sum
    by_cases e10 : j = 10
    · rw [e10, hs10]
    by_cases e11 : j = 11
    · rw [e11, hs11]
    by_cases e12 : j = th p.mem + 12
    · rw [e12, h12, hres.off]
    by_cases e13 : j = th p.mem + 13
    · rw [e13, h13]
      exact (restoredFlags_eq_iff hcsflags hflags).mpr ⟨hres.unused, hres.urg⟩
    rw [hother j e10 e11]
    by_cases hjh : j < hdrLen p.mem
    · rw [hhdr j hjh]
      exact newHeader_apply hwf htr hun hconv hjh e10 e11 e12 e13
    · exact hdata j (by omega) hj

end

end rebuild

end Bsd386.Net.Slcompress
