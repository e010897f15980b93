import Bsd386.Net.Slcompress.Restore
import Bsd386.Net.Slcompress.Select

/-!
# Round trip over a line that loses nothing

Packets go through `sl_compress_tcp`, and each frame is delivered, in order and unchanged, to
`sl_uncompress_tcp` at the other end (`carry`, `carryAll`). A frame may land at any address, with
anything in the memory behind it.

`Sync tx rx l`: every transmit state in use has a copy at the receiver (`Tracked`), and no two of
them are for one conversation.

**Result** (`carryAll_eq_iff`): between two fresh states the receiver obtains every well-formed
packet byte for byte exactly when each one that goes compressed is restorable (`Carried`).
-/

namespace Bsd386.Net.Slcompress

open Function Lib.Bytes List BitVec
open Lib.Lru

/-! ## The line -/

/-- Where a frame lands: an address, and what is in memory behind the frame. -/
structure Landing where
  addr : ℕ
  behind : Mem

/-- The frame in the receiver's memory. -/
def deliver (f : Buf) (at' : Landing) : Buf :=
  { addr := at'.addr, mem := fun i => if i < f.len then f.mem i else at'.behind i, len := f.len }

theorem deliver_apply (f : Buf) (at' : Landing) {j : ℕ} (hj : j < f.len) :
    (deliver f at').mem j = f.mem j := if_pos hj

/-- The bytes `sl_uncompress_tcp` returns. -/
def Received.bytes (r : Received) : List Byte := (List.range r.len).map r.buf.mem

/-- One packet: the new states of both ends, and what the receiver obtains. A frame of type
`TYPE_IP` is delivered as it is.
Source: slcompress.c; slstart, slintr -/
def carry (tx rx : Slcompress) (p : Buf) (at' : Landing) :
    Except Fault (Slcompress × Slcompress × List Byte) :=
  match slCompressTcp p tx with
  | .error e => .error e
  | .ok s =>
    if s.type = typeIp then .ok (s.comp, rx, (deliver s.frame at').bytes)
    else
      match slUncompressTcp (deliver s.frame at') s.type rx with
      | .error e => .error e
      | .ok r => .ok (s.comp, r.comp, r.bytes)

/-- A sequence of packets: everything the receiver obtains. -/
def carryAll : Slcompress → Slcompress → List (Buf × Landing) → Except Fault (List (List Byte))
  | _, _, [] => .ok []
  | tx, rx, x :: xs =>
    match carry tx rx x.1 x.2 with
    | .error e => .error e
    | .ok (tx', rx', out) =>
      match carryAll tx' rx' xs with
      | .error e => .error e
      | .ok outs => .ok (out :: outs)

/-- The packet comes through in this state of the sender: where it goes compressed against a saved
header of its conversation, it is restorable from that header. -/
def Carried (tx : Slcompress) (p : Buf) : Prop :=
  compressible p = true → ∀ i, conv p.mem = conv (tx.tstate i).csHdr →
    (slChanges (tx.tstate i).csHdr p.mem).isSome = true →
      Restorable (tx.tstate i).csHdr p.mem

/-- Every packet comes through in the state the sender is in when its turn comes. -/
def AllCarried : Slcompress → List (Buf × Landing) → Prop
  | _, [] => True
  | tx, x :: xs => Carried tx x.1 ∧ ∀ s, slCompressTcp x.1 tx = .ok s → AllCarried s.comp xs

/-! ## The invariant -/

/-- The two ends agree. -/
structure Sync (tx rx : Slcompress) (l : List Slot) : Prop where
  txInv : TxInv tx l
  tracked : ∀ i, Used tx i → Tracked (tx.tstate i).csHdr (rx.rstate i)
  distinct : ∀ i j, Used tx i → Used tx j →
    conv (tx.tstate i).csHdr = conv (tx.tstate j).csHdr → i = j

theorem sync_init :
    Sync slCompressInit slCompressInit [15, 14, 13, 12, 11, 10, 9, 8, 7, 6, 5, 4, 3, 2, 1, 0] where
  txInv := txInv_init
  tracked := fun _ h => absurd rfl h
  distinct := fun _ _ h => absurd rfl h

theorem map_range_eq_iff {f g : Mem} {n : ℕ} :
    (List.range n).map f = (List.range n).map g ↔ ∀ j, j < n → f j = g j := by
  rw [map_inj_left]
  exact ⟨fun h j hj => h j (mem_range.mpr hj), fun h j hj => h j (mem_range.mp hj)⟩

theorem hdrLen_congr {p : Buf} (hwf : WellFormed p) {h : Mem}
    (hp : ∀ j, j < hdrLen p.mem → h j = p.mem j) : th h = th p.mem ∧ hdrLen h = hdrLen p.mem := by
  have h20 := hwf.th_add_le
  have hhl : ipHl h = ipHl p.mem := by rw [ipHl, hp 0 (by omega), ipHl]
  have hth : th h = th p.mem := by rw [th, hhl, th]
  refine ⟨hth, ?_⟩
  rw [hdrLen, hhl, hth, thOff, hp _ (by omega), hdrLen, thOff]

theorem saved_apply {p : Buf} (old : Mem) :
    ∀ j, j < hdrLen p.mem → overlay p.mem old 0 (hdrLen p.mem) j = p.mem j :=
  fun _ hj => overlay_apply_of_mem ⟨Nat.zero_le _, by omega⟩

theorem tracked_saved {p : Buf} (hwf : WellFormed p)
    (hflags : thFlags p.mem (th p.mem) &&& thControl = thAckBit) (old : Mem) {r : Rstate}
    (hlen : r.csHlen = hdrLen p.mem)
    (hbytes : ∀ j, j < hdrLen p.mem → j ≠ 10 → j ≠ 11 → r.csHdr j = p.mem j)
    (hsum : r.csHdr 10 = 0 ∧ r.csHdr 11 = 0) :
    Tracked (overlay p.mem old 0 (hdrLen p.mem)) r := by
  have h20 := hwf.th_add_le
  have hsaved := saved_apply (p := p) old
  obtain ⟨hth, hhl⟩ := hdrLen_congr hwf hsaved
  refine ⟨?_, ?_, ?_, ?_, ?_, ?_, hsum⟩
  · rw [ipHl, hsaved 0 (by omega)]
    exact hwf.hl
  · rw [hth, thOff, hsaved _ (by omega)]
    exact hwf.off
  · rw [hhl]
    exact hwf.hdr
  · rw [hth, thFlags, hsaved _ (by omega)]
    exact hflags
  · rw [hhl, hlen]
  · intro j hj h1 h2
    rw [hhl] at hj
    rw [hbytes j hj h1 h2, hsaved j hj]

theorem conv_saved {p : Buf} (hwf : WellFormed p) (old : Mem) :
    conv (overlay p.mem old 0 (hdrLen p.mem)) = conv p.mem := by
  have h20 := hwf.th_add_le
  have hsaved := saved_apply (p := p) old
  rw [conv, (hdrLen_congr hwf hsaved).1, conv,
    get32_congr fun j _ hj => hsaved j (by omega), get32_congr fun j _ hj => hsaved j (by omega),
    get32_congr fun j _ hj => hsaved j (by omega)]

/-- **The ends agree again** when the packet's header is saved on both sides on a state that no
other state in use has the conversation of. -/
theorem Sync.save {tx tx' rx rx' : Slcompress} {l l' : List Slot} {cs : Slot} {p : Buf}
    (hsync : Sync tx rx l) (hc : Chosen tx tx' cs l') (hwf : WellFormed p)
    (hconv : ∀ i, i ≠ cs → Used tx i → conv p.mem ≠ conv (tx.tstate i).csHdr)
    (hother : ∀ i, i ≠ cs → rx'.rstate i = rx.rstate i)
    (hcs : ∀ old, Tracked (overlay p.mem old 0 (hdrLen p.mem)) (rx'.rstate cs)) :
    Sync (saveHeader tx' cs p.mem) rx' (cs :: l') := by
  have h20 := hwf.th_add_le
  have h₀ : p.mem 0 ≠ 0 := by
    intro h0
    have := hwf.version
    rw [h0] at this
    exact absurd this (by decide)
  have hself : ((saveHeader tx' cs p.mem).tstate cs).csHdr =
      overlay p.mem (tx'.tstate cs).csHdr 0 (hdrLen p.mem) := by
    simp only [saveHeader]
    rw [update_self]
  have hrest : ∀ i, i ≠ cs → ((saveHeader tx' cs p.mem).tstate i).csHdr =
      (tx.tstate i).csHdr := by
    intro i hi
    simp only [saveHeader]
    rw [update_of_ne hi, (hc.same i).1]
  have hused : ∀ i, i ≠ cs → Used (saveHeader tx' cs p.mem) i → Used tx i := by
    intro i hi hu
    unfold Used at hu ⊢
    rwa [hrest i hi] at hu
  refine ⟨hc.txInv hsync.txInv h₀ (by omega), ?_, ?_⟩
  · intro i hu
    by_cases hi : i = cs
    · rw [hi, hself]
      exact hcs _
    · rw [hrest i hi, hother i hi]
      exact hsync.tracked i (hused i hi hu)
  · intro i j hui huj heq
    by_cases hi : i = cs
    · by_cases hj : j = cs
      · rw [hi, hj]
      · rw [hi, hself, hrest j hj, conv_saved hwf] at heq
        exact absurd heq (hconv j hj (hused j hj huj))
    by_cases hj : j = cs
    · rw [hj, hself, hrest i hi, conv_saved hwf] at heq
      exact absurd heq.symm (hconv i hi (hused i hi hui))
    · rw [hrest i hi, hrest j hj] at heq
      exact hsync.distinct i j (hused i hi hui) (hused j hj huj) heq

/-! ## An uncompressed frame -/

theorem toNat_ofNat_slot (i : Slot) : (BitVec.ofNat 8 i).toNat = i := by
  have hi : (i : ℕ) < 16 := i.isLt
  rw [toNat_ofNat, Nat.mod_eq_of_lt (by omega)]

theorem slot?_ofNat (i : Slot) : slot? (BitVec.ofNat 8 i) = some i := by
  have hi := toNat_ofNat_slot i
  rw [slot?, dif_pos (by rw [hi]; exact i.isLt)]
  exact congrArg some (Fin.ext hi)

theorem slUncompressTcp_uncompressed {p : Buf} (hwf : WellFormed p)
    (hflags : thFlags p.mem (th p.mem) &&& thControl = thAckBit) (rx : Slcompress) (cs : Slot)
    (at' : Landing) :
    ∃ r, slUncompressTcp (deliver { p with mem := set8 p.mem 9 (BitVec.ofNat 8 cs) } at')
        typeUncompressedTcp rx = .ok r ∧ r.bytes = p.bytes ∧
      (∀ i, i ≠ cs → r.comp.rstate i = rx.rstate i) ∧
      ∀ old, Tracked (overlay p.mem old 0 (hdrLen p.mem)) (r.comp.rstate cs) := by
  have h20 := hwf.th_add_le
  have hfits := hwf.fits
  obtain ⟨f, hf⟩ : ∃ f, deliver { p with mem := set8 p.mem 9 (BitVec.ofNat 8 cs) } at' = f :=
    ⟨_, rfl⟩
  have hlen : f.len = p.len := by rw [← hf]; rfl
  have hf9 : f.mem 9 = BitVec.ofNat 8 cs := by
    rw [← hf]
    simp only [deliver]
    rw [if_pos (by omega), set8_apply_self]
  have hip : ∀ j, j < p.len → set8 f.mem 9 ipprotoTcp j = p.mem j := by
    intro j hj
    by_cases h9 : j = 9
    · rw [h9, set8_apply_self, hwf.proto]
    · rw [set8_apply_of_ne _ h9, ← hf]
      simp only [deliver]
      rw [if_pos hj, set8_apply_of_ne _ h9]
  obtain ⟨-, hhl⟩ := hdrLen_congr hwf fun j hj => hip j (by omega)
  rw [hf]
  simp only [slUncompressTcp, if_true, recvUncompressed, hf9, slot?_ofNat, hhl]
  rw [if_neg (Nat.not_lt.mpr hwf.hdr)]
  refine ⟨_, rfl, ?_, ?_, ?_⟩
  · simp only [Received.bytes, Buf.bytes, hlen]
    exact map_range_eq_iff.mpr hip
  · intro i hi
    simp only [setRstate]
    rw [update_of_ne hi]
  · intro old
    simp only [setRstate]
    rw [update_self]
    refine tracked_saved hwf hflags old rfl ?_ ?_
    · intro j hj h1 h2
      simp only [savedHeader]
      rw [set16_apply_of_ne _ h1 h2, overlay_apply_of_mem ⟨Nat.zero_le _, by omega⟩]
      exact hip j (by omega)
    · constructor <;> rfl

/-! ## A compressed frame -/

theorem length_newSeq_le {cs ip : Mem} {c : Byte × List Byte} (h : slChanges cs ip = some c) :
    c.2.length ≤ 15 := by
  obtain ⟨-, -, -, -, -, -, hseq⟩ := slChanges_cases h
  have hcoded : ∀ (b : Bool) (l : List Byte), l.length ≤ 3 → (coded b l).length ≤ 3 := by
    intro b l hl
    cases b
    · exact Nat.zero_le 3
    · exact hl
  have hid := hcoded (idNew cs ip) _ (length_encodez_le (deltaId cs ip))
  have hnum : (codeOf cs ip).seq.length ≤ 12 := by
    unfold codeOf
    split_ifs
    · exact Nat.zero_le 12
    have h1 := hcoded (urgSet ip (th ip)) _ (length_encodez_le ((thUrp ip (th ip)).setWidth 32))
    have h2 := hcoded (winNew cs ip (th ip)) _
      (length_encode_le ((thWin ip (th ip) - thWin cs (th ip)).setWidth 32))
    have h3 := hcoded (ackNew cs ip (th ip)) _ (length_encode_le (deltaA cs ip (th ip)))
    have h4 := hcoded (seqNew cs ip (th ip)) _ (length_encode_le (deltaS cs ip (th ip)))
    simp only [numbers, length_append]
    omega
  rw [hseq, length_append]
  omega

/-- **A compressed frame** gives the packet back exactly if it is restorable, and then leaves a
copy of its header. -/
theorem slUncompressTcp_compressed {p : Buf} (hwf : WellFormed p)
    (hflags : thFlags p.mem (th p.mem) &&& thControl = thAckBit) {rx : Slcompress} {cs : Slot}
    {h : Mem} {c : Byte × List Byte} (hc : slChanges h p.mem = some c)
    (hconv : conv p.mem = conv h) (htr : Tracked h (rx.rstate cs)) (at' : Landing) :
    ∃ r, slUncompressTcp
        (deliver (compressedFrame (compressedHeader (BitVec.ofNat 8 cs) p.mem c.1 c.2) p) at')
        typeCompressedTcp rx = .ok r ∧ (r.bytes = p.bytes ↔ Restorable h p.mem) ∧
      (∀ i, i ≠ cs → r.comp.rstate i = rx.rstate i) ∧
      (Restorable h p.mem →
        ∀ old, Tracked (overlay p.mem old 0 (hdrLen p.mem)) (r.comp.rstate cs)) := by
  have h20 := hwf.th_add_le
  have ht := hwf.le_th
  have hfits := hwf.fits
  have hseq := length_newSeq_le hc
  obtain ⟨hun, -, -, -, -, hfirst, -⟩ := slChanges_cases hc
  obtain ⟨hth, hhl⟩ := unchangedFields_len hun
  -- the frame: its header, and then the data
  obtain ⟨hd, hhd⟩ : ∃ hd, compressedHeader (BitVec.ofNat 8 cs) p.mem c.1 c.2 = hd := ⟨_, rfl⟩
  have hdlen : hd.length = 4 + c.2.length := by
    rw [← hhd]
    simp only [compressedHeader, length_append, length_cons, length_nil]
  obtain ⟨f, hf⟩ : ∃ f, deliver (compressedFrame hd p) at' = f := ⟨_, rfl⟩
  have hf' : (compressedFrame hd p).len = p.len - (hdrLen p.mem - hd.length) := rfl
  have hlen : f.len = p.len - (hdrLen p.mem - hd.length) := by rw [← hf]; rfl
  have hfhd : At f.mem 0 hd := by
    intro j hj
    rw [Nat.zero_add, ← hf, deliver_apply _ _ (by rw [hf']; omega)]
    exact if_pos hj
  have hfdata : ∀ j, j < f.len - hd.length → f.mem (hd.length + j) = p.mem (hdrLen p.mem + j) := by
    intro j hj
    have hat : (compressedFrame hd p).mem (hd.length + j) =
        p.mem (hd.length + j + (hdrLen p.mem - hd.length)) := if_neg (by omega)
    rw [← hf, deliver_apply _ _ (by rw [hf']; omega), hat]
    congr 1
    omega
  rw [← hhd, compressedHeader, at_append] at hfhd
  obtain ⟨hfour, hatseq⟩ := hfhd
  have hf0 : f.mem 0 = c.1 ||| newC := hfour 0 (by simp)
  have hf1 : f.mem 1 = BitVec.ofNat 8 cs := hfour 1 (by simp)
  have hsum : f.mem 2 ++ f.mem 3 = thSum p.mem (th p.mem) := by
    have h2 : f.mem 2 = _ := hfour 2 (by simp)
    have h3 : f.mem 3 = _ := hfour 3 (by simp)
    rw [h2, h3]
    simp only [getD_cons_succ, getD_cons_zero, thSum, get16]
    rw [extractLsb'_append_eq_left, extractLsb'_append_eq_right]
  have hbits : f.mem 0 &&& newC ≠ 0 := by
    rw [hf0, hfirst]
    exact firstByte_newC _ _ _ _ _ _
  have hi : (BitVec.ofNat 8 cs : Byte).toNat < maxStates := by
    rw [toNat_ofNat_slot]
    exact cs.isLt
  have hsel : selectState f.mem rx =
      .go { rx with toss := false, lastRecv := BitVec.ofNat 8 cs } 2 := by
    rw [selectState, if_pos hbits, hf1, if_neg (Nat.not_le.mpr hi)]
  -- the copy agrees with the sender's header, so it is decoded to `restored`
  have hcopy : th (rx.rstate cs).csHdr = th p.mem := by
    rw [th, ipHl, htr.bytes 0 (by omega) (by omega) (by omega), ← ipHl, ← th, hth]
  have hdec := decodeHeader_eq (h := (rx.rstate cs).csHdr) hc hcopy ht
    (fun j hj h1 h₂ => htr.bytes j (by omega) h1 h₂) hsum hatseq
  rw [← hf0, ← hdlen, ← hhl, ← htr.hlen] at hdec
  have hne : ¬ typeCompressedTcp = typeUncompressedTcp := by decide
  have hlen16 : BitVec.ofNat 16 p.len = get16 p.mem 2 := by
    apply eq_of_toNat_eq
    rw [← ipLen, hwf.len, toNat_ofNat, Nat.mod_eq_of_lt]
    rw [← hwf.len]
    exact (ipLen p.mem).isLt
  have htotal : f.len - hd.length + (rx.rstate cs).csHlen = p.len := by
    rw [htr.hlen, hhl]
    omega
  rw [hhd, hf]
  simp only [slUncompressTcp, if_neg hne, if_true, hsel, recvCompressed, slot?_ofNat, hdec,
    htotal, hlen16, set16_get16, hcopy]
  rw [if_neg (by omega), if_neg (by rw [htr.hlen, hhl]; exact Nat.not_lt.mpr hwf.hdr)]
  have hhdr : ∀ j, j < hdrLen p.mem →
      (rebuilt f { csHlen := (rx.rstate cs).csHlen
                   csHdr := newHeader h p.mem (rx.rstate cs).csHdr } hd.length).mem j =
        newHeader h p.mem (rx.rstate cs).csHdr j := by
    intro j hj
    simp only [rebuilt]
    rw [if_pos (by rw [htr.hlen, hhl]; exact hj)]
  have hdata : ∀ j, hdrLen p.mem ≤ j → j < p.len →
      (rebuilt f { csHlen := (rx.rstate cs).csHlen
                   csHdr := newHeader h p.mem (rx.rstate cs).csHdr } hd.length).mem j =
        p.mem j := by
    intro j hj hj'
    simp only [rebuilt, htr.hlen, hhl]
    rw [if_neg (by omega), if_pos (by omega), hfdata _ (by omega)]
    congr 1
    omega
  have hiff := rebuilt_eq_iff hwf htr hun hconv hflags hhdr hdata
  refine ⟨_, rfl, ?_, ?_, ?_⟩
  · simp only [Received.bytes, Buf.bytes]
    rw [map_range_eq_iff]
    exact hiff
  · intro i hi
    simp only [setRstate]
    rw [update_of_ne hi]
  · intro hres old
    simp only [setRstate]
    rw [update_self]
    obtain ⟨hn10, hn11, hn12, hn13⟩ := newHeader_rest hwf htr hun
    refine tracked_saved hwf hflags old (htr.hlen.trans hhl) ?_ ⟨hn10, hn11⟩
    intro j hj h1 h₂
    have hj' := hiff.mpr hres j (by omega)
    simp only [setIpSum] at hj'
    rw [set8_apply_of_ne _ h₂, set8_apply_of_ne _ h1, hhdr j hj] at hj'
    exact hj'

/-! ## One packet -/

theorem compressible_flags {p : Buf} (h : compressible p = true) :
    thFlags p.mem (th p.mem) &&& thControl = thAckBit := by
  simp only [compressible, Bool.and_eq_true, beq_iff_eq] at h
  exact h.2

theorem carry_ip {tx : Slcompress} (rx : Slcompress) {p : Buf} (h : ¬ compressible p = true)
    (at' : Landing) : carry tx rx p at' = .ok (tx, rx, p.bytes) := by
  have hs : slCompressTcp p tx = .ok { type := typeIp, frame := p, comp := tx } := by
    rw [slCompressTcp, if_neg h]
  have hbytes : (deliver p at').bytes = p.bytes :=
    map_range_eq_iff.mpr fun j hj => deliver_apply p at' hj
  simp only [carry, hs, if_true, hbytes]

section step

variable {tx tx' rx : Slcompress} {l l' : List Slot} {cs : Slot} {p : Buf}

theorem carry_uncompressed (hsync : Sync tx rx l) (hc : Chosen tx tx' cs l') (hwf : WellFormed p)
    (hp : compressible p = true)
    (hconv : ∀ i, i ≠ cs → Used tx i → conv p.mem ≠ conv (tx.tstate i).csHdr)
    (hs : slCompressTcp p tx = sendUncompressed tx' cs p) (at' : Landing) :
    ∃ s rx', slCompressTcp p tx = .ok s ∧ carry tx rx p at' = .ok (s.comp, rx', p.bytes) ∧
      Sync s.comp rx' (cs :: l') := by
  have hid : (tx'.tstate cs).csId = BitVec.ofNat 8 cs :=
    (hc.same cs).2.trans (hsync.txInv.ids cs)
  rw [sendUncompressed, if_neg (Nat.not_lt.mpr hwf.hdr), hid] at hs
  obtain ⟨r, hr, hbytes, hother, htracked⟩ :=
    slUncompressTcp_uncompressed hwf (compressible_flags hp) rx cs at'
  refine ⟨_, r.comp, hs, ?_, hsync.save hc hwf hconv hother htracked⟩
  have hne : ¬ typeUncompressedTcp = typeIp := by decide
  simp only [carry, hs, if_neg hne, hr, hbytes]

theorem carry_compressed (hsync : Sync tx rx l) (hc : Chosen tx tx' cs l') (hwf : WellFormed p)
    (hp : compressible p = true) (hcs : conv p.mem = conv (tx.tstate cs).csHdr)
    {c : Byte × List Byte} (hchg : slChanges (tx.tstate cs).csHdr p.mem = some c)
    (hused : Used tx cs) (hs : slCompressTcp p tx = sendOn tx' cs p) (at' : Landing) :
    ∃ s rx' out, slCompressTcp p tx = .ok s ∧ carry tx rx p at' = .ok (s.comp, rx', out) ∧
      (out = p.bytes ↔ Restorable (tx.tstate cs).csHdr p.mem) ∧
      (Restorable (tx.tstate cs).csHdr p.mem → Sync s.comp rx' (cs :: l')) := by
  have hid : (tx'.tstate cs).csId = BitVec.ofNat 8 cs :=
    (hc.same cs).2.trans (hsync.txInv.ids cs)
  rw [sendOn, (hc.same cs).1, hchg] at hs
  dsimp only at hs
  rw [if_neg (Nat.not_lt.mpr hwf.hdr), hid] at hs
  obtain ⟨r, hr, hbytes, hother, htracked⟩ := slUncompressTcp_compressed hwf
    (compressible_flags hp) hchg hcs (hsync.tracked cs hused) at'
  have hconv : ∀ i, i ≠ cs → Used tx i → conv p.mem ≠ conv (tx.tstate i).csHdr :=
    fun i hi hu heq => hi (hsync.distinct i cs hu hused (heq.symm.trans hcs))
  refine ⟨_, r.comp, r.bytes, hs, ?_, hbytes, fun hres =>
    hsync.save hc hwf hconv hother (htracked hres)⟩
  have hne : ¬ typeCompressedTcp = typeIp := by decide
  simp only [carry, hs, if_neg hne, hr]

theorem used_of_slChanges (hwf : WellFormed p) {i : Slot}
    (h : (slChanges (tx.tstate i).csHdr p.mem).isSome = true) : Used tx i := by
  obtain ⟨c, hc⟩ := Option.isSome_iff_exists.mp h
  have hun := (slChanges_cases hc).1
  simp only [unchangedFields, Bool.and_eq_true, beq_iff_eq] at hun
  have h0 : p.mem 0 = (tx.tstate i).csHdr 0 := (get16_inj hun.1.1.1.1.1).1
  unfold Used
  rw [← h0]
  intro hz
  have := hwf.version
  rw [hz] at this
  exact absurd this (by decide)

/-- **One packet.** Between ends that agree, the receiver obtains the packet exactly if it is
carried in the sender's state, and then the ends agree again. -/
theorem carry_step (hsync : Sync tx rx l) (hwf : WellFormed p) (at' : Landing) :
    ∃ s rx' out, slCompressTcp p tx = .ok s ∧ carry tx rx p at' = .ok (s.comp, rx', out) ∧
      (out = p.bytes ↔ Carried tx p) ∧ (Carried tx p → ∃ l', Sync s.comp rx' l') := by
  by_cases hp : compressible p = true
  · obtain ⟨tx', cs, l', hc, ⟨hcs, hfirst, hs⟩ | ⟨hnone, hs⟩⟩ :=
      slCompressTcp_spec hsync.txInv hp
    · -- a state of the conversation: it is the only one in use
      have honly : ∀ i, conv p.mem = conv (tx.tstate i).csHdr → Used tx i → i = cs :=
        fun i hi hu => hsync.distinct i cs hu (hfirst i hu hi) (hi.symm.trans hcs)
      cases hchg : slChanges (tx.tstate cs).csHdr p.mem with
      | none =>
        have hs' : slCompressTcp p tx = sendUncompressed tx' cs p := by
          rw [hs, sendOn, (hc.same cs).1, hchg]
        obtain ⟨s, rx', h1, h2, h3⟩ := carry_uncompressed hsync hc hwf hp
          (fun i hi hu heq => hi (honly i heq hu)) hs' at'
        have hcarried : Carried tx p := by
          intro _ i hi hsome
          have := honly i hi (used_of_slChanges hwf hsome)
          rw [this, hchg] at hsome
          cases hsome
        exact ⟨s, rx', _, h1, h2, ⟨fun _ => hcarried, fun _ => rfl⟩, fun _ => ⟨_, h3⟩⟩
      | some c =>
        have hsome : (slChanges (tx.tstate cs).csHdr p.mem).isSome = true := by rw [hchg]; rfl
        have hiff : Restorable (tx.tstate cs).csHdr p.mem ↔ Carried tx p := by
          constructor
          · intro hres _ i hi hsome'
            rw [honly i hi (used_of_slChanges hwf hsome')]
            exact hres
          · exact fun h => h hp cs hcs hsome
        obtain ⟨s, rx', out, h1, h2, h3, h4⟩ := carry_compressed hsync hc hwf hp hcs hchg
          (used_of_slChanges hwf hsome) hs at'
        exact ⟨s, rx', out, h1, h2, h3.trans hiff, fun h => ⟨_, h4 (hiff.mpr h)⟩⟩
    · obtain ⟨s, rx', h1, h2, h3⟩ := carry_uncompressed hsync hc hwf hp
        (fun i _ _ => hnone i) hs at'
      have hcarried : Carried tx p := fun _ i hi _ => absurd hi (hnone i)
      exact ⟨s, rx', _, h1, h2, ⟨fun _ => hcarried, fun _ => rfl⟩, fun _ => ⟨_, h3⟩⟩
  · have hs : slCompressTcp p tx = .ok { type := typeIp, frame := p, comp := tx } := by
      rw [slCompressTcp, if_neg hp]
    have hcarried : Carried tx p := fun h => absurd h hp
    exact ⟨_, rx, _, hs, carry_ip rx hp at', ⟨fun _ => hcarried, fun _ => rfl⟩,
      fun _ => ⟨l, hsync⟩⟩

end step

/-! ## Whole runs -/

theorem carryAll_eq_iff_of_sync (xs : List (Buf × Landing)) {tx rx : Slcompress} {l : List Slot}
    (hsync : Sync tx rx l) (hwf : ∀ x ∈ xs, WellFormed x.1) :
    carryAll tx rx xs = .ok (xs.map fun x => x.1.bytes) ↔ AllCarried tx xs := by
  induction xs generalizing tx rx l with
  | nil => exact iff_of_true rfl trivial
  | cons x xs ih =>
    obtain ⟨s, rx', out, hs, hcarry, hout, hsync'⟩ := carry_step hsync (hwf x (by simp)) x.2
    have hall : AllCarried tx (x :: xs) ↔ Carried tx x.1 ∧ AllCarried s.comp xs := by
      constructor
      · exact fun h => ⟨h.1, h.2 s hs⟩
      · rintro ⟨h1, h2⟩
        refine ⟨h1, fun s' hs' => ?_⟩
        rw [hs] at hs'
        obtain rfl := Except.ok.inj hs'
        exact h2
    rw [hall, ← hout, map_cons]
    simp only [carryAll, hcarry]
    have hrest : out = x.1.bytes →
        (carryAll s.comp rx' xs = .ok (xs.map fun x => x.1.bytes) ↔ AllCarried s.comp xs) := by
      intro h
      obtain ⟨l', hl'⟩ := hsync' (hout.mp h)
      exact ih hl' fun y hy => hwf y (by simp [hy])
    constructor
    · intro h
      split at h
      · cases h
      · rename_i outs houts
        obtain ⟨rfl, rfl⟩ := cons.inj (Except.ok.inj h)
        exact ⟨rfl, (hrest rfl).mp houts⟩
    · rintro ⟨rfl, h⟩
      rw [(hrest rfl).mpr h]

/-- **Round trip.** Between two fresh ends, a sequence of well-formed packets is obtained byte for
byte exactly when every packet is carried in the state the sender has reached.
Source: sl_compress_tcp, sl_uncompress_tcp Kind: C -/
theorem carryAll_eq_iff (xs : List (Buf × Landing)) (hwf : ∀ x ∈ xs, WellFormed x.1) :
    carryAll slCompressInit slCompressInit xs = .ok (xs.map fun x => x.1.bytes) ↔
      AllCarried slCompressInit xs :=
  carryAll_eq_iff_of_sync xs sync_init hwf

/-- A small segment between two fixed ports, acknowledging 1, with an urgent pointer of 1. -/
def segment (id seq flags : Byte) (data : List Byte) : Buf :=
  let l : List Byte :=
    [0x45, 0, 0, 40 + BitVec.ofNat 8 data.length, 0, id, 0, 0, 64, 6, 0x66, 0xcc,
      10, 0, 0, 1, 10, 0, 0, 2, 0, 1, 0, 2, 0, 0, 0, seq, 0, 0, 0, 1, 0x50, flags,
      0, 0, 0, 0, 0, 1] ++ data
  { addr := 0, mem := fun i => l.getD i 0, len := l.length }

/-- A landing at a word boundary before zeros. -/
def landing : Landing := { addr := 0, behind := fun _ => 0 }

/-- A segment with one byte of data and the one after it, which goes compressed as a special case.
Source: sl_compress_tcp, sl_uncompress_tcp Kind: C -/
theorem carryAll_eq_iff_segments :
    (∀ x ∈ [(segment 1 1 0x10 [0], landing), (segment 2 2 0x10 [], landing)], WellFormed x.1) ∧
      AllCarried slCompressInit
        [(segment 1 1 0x10 [0], landing), (segment 2 2 0x10 [], landing)] := by
  have hwf : ∀ x ∈ [(segment 1 1 0x10 [0], landing), (segment 2 2 0x10 [], landing)],
      WellFormed x.1 := by
    refine forall_mem_cons.mpr ⟨?_, forall_mem_singleton.mpr ?_⟩
    · constructor <;> decide
    · constructor <;> decide
  refine ⟨hwf, (carryAll_eq_iff _ hwf).mp ?_⟩
  decide +kernel

/-- If the first of the two segments has `TH_URG`, the second one arrives with it too.
Source: sl_compress_tcp, sl_uncompress_tcp Kind: C -/
theorem not_forall_carryAll_eq :
    ¬ ∀ xs : List (Buf × Landing), (∀ x ∈ xs, WellFormed x.1) →
      carryAll slCompressInit slCompressInit xs = .ok (xs.map fun x => x.1.bytes) := by
  intro h
  have hwf : ∀ x ∈ [(segment 1 1 0x30 [0], landing), (segment 2 2 0x10 [], landing)],
      WellFormed x.1 := by
    refine forall_mem_cons.mpr ⟨?_, forall_mem_singleton.mpr ?_⟩
    · constructor <;> decide
    · constructor <;> decide
  have hne : carryAll slCompressInit slCompressInit
      [(segment 1 1 0x30 [0], landing), (segment 2 2 0x10 [], landing)] ≠
        .ok [(segment 1 1 0x30 [0]).bytes, (segment 2 2 0x10 []).bytes] := by
    decide +kernel
  exact hne (h _ hwf)

end Bsd386.Net.Slcompress
