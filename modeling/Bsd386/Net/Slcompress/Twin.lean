import Bsd386.Lib.Transition
import Bsd386.Net.Slcompress.Bounds

/-!
# The two receivers on one frame

The frame of a flat buffer, given to `sl_uncompress_tcp` and, as the only mbuf of a packet header
chain, to `sl_muncompress_tcp`. `Agree`: both return, with the same packet or both with none, and
leave the same state; and what is read and written of the packet that is put together lies in it.

Both decode a frame with the same code (`decodeHeader`), so the states after a frame that is too
short are equal without further argument. For an accepted one the invariant is `Saved`, of each
saved header.
-/

namespace Bsd386.Net.Slcompress

open Lib.Bytes List
open Lib.Transition (Reach)

/-! ## One frame for both -/

/-- `MHLEN`: `MLEN` less the packet header. Source: mbuf.h, MHLEN -/
abbrev mhlen : ℕ := 100

/-- Where `MH_ALIGN` puts `len` bytes in a new mbuf: at its end, on a word boundary.
Source: mbuf.h, MH_ALIGN; m_prepend -/
def mhAlign (len : ℕ) : ℕ := if len < mhlen then (mhlen - len) / 4 * 4 else 0

/-- A frame in the only mbuf of a packet header chain. -/
def Buf.chain (buf : Buf) (space : ℕ) : Chain where
  mem := buf.mem
  len := buf.len
  rest := []
  pkthdrLen := BitVec.ofNat 32 buf.len
  space := space

/-- The packet a caller of `sl_uncompress_tcp` goes on with: none when the length is 0.
Source: sl_uncompress_tcp; slinput -/
def Received.packet (r : Received) : Option (List Byte) :=
  if r.len = 0 then none else some ((List.range r.len).map r.buf.mem)

/-- The packet a caller of `sl_muncompress_tcp` goes on with.
Source: sl_muncompress_tcp -/
def Mreceived.packet (r : Mreceived) : Option (List Byte) := r.m.map Chain.bytes

/-- What an accepted compressed frame is made into a packet from: how much data it carries, how
long the saved header is (`cs_hlen`), and its IP header.
Source: sl_uncompress_tcp -/
structure Parts where
  data : ℕ
  csHlen : ℕ
  hlen : ℕ
deriving DecidableEq

/-- The parts of a compressed frame, if it is accepted.
Source: sl_uncompress_tcp -/
def parts? (buf : Buf) (type : BitVec 32) (comp : Slcompress) : Option Parts :=
  if type = typeCompressedTcp then
    match selectState buf.mem comp with
    | .go comp cp =>
      match slot? comp.lastRecv with
      | some i =>
        let cs := comp.rstate i
        let d := decodeHeader buf.mem cs.csHdr cs.csHlen cp (buf.mem 0)
        if buf.len < d.2 then none
        else some { data := buf.len - d.2, csHlen := cs.csHlen, hlen := th cs.csHdr }
      | none => none
    | _ => none
  else none

/-- The words of the IP header and the checksum are in the packet, and, when the header goes to a
new mbuf, in that mbuf.
Source: sl_uncompress_tcp, sl_muncompress_tcp -/
def Parts.Inside (p : Parts) (space : ℕ) : Prop :=
  max p.hlen 12 ≤ p.data + p.csHlen ∧
    (space < p.csHlen → mhAlign p.csHlen + max p.csHlen (max p.hlen 12) ≤ mhlen)

/-- The two functions do the same with a frame: with any memory in the mbuf that an allocation
gives, both return the same packet, or none, and leave the same state.
Source: sl_uncompress_tcp, sl_muncompress_tcp -/
def Alike (buf : Buf) (space : ℕ) (type : BitVec 32) (comp : Slcompress) : Prop :=
  ∀ new, ∃ r r', slUncompressTcp buf type comp = .ok r ∧
    slMuncompressTcp (buf.chain space) (some new) type comp = .ok r' ∧
      r.packet = r'.packet ∧ r.comp = r'.comp

/-- The two functions agree on a frame: they do the same, inside the packet.
Source: sl_uncompress_tcp, sl_muncompress_tcp -/
structure Agree (buf : Buf) (space : ℕ) (type : BitVec 32) (comp : Slcompress) : Prop where
  inside : ∀ p, parts? buf type comp = some p → p.Inside space
  same : Alike buf space type comp

/-- The frames the two functions treat alike.
Source: sl_uncompress_tcp, sl_muncompress_tcp -/
structure Plain (buf : Buf) (space : ℕ) (type : BitVec 32) (comp : Slcompress) : Prop where
  /-- An uncompressed frame holds the headers it announces, and these fit `MAX_HDR`. -/
  uncompressed : type = typeUncompressedTcp → (buf.mem 9).toNat < maxStates →
    0 < buf.len ∧ hdrLen buf.mem ≤ buf.len ∧ hdrLen buf.mem ≤ maxHdr
  /-- An implicit index follows an explicit one, or the frame is tossed. -/
  index : type = typeCompressedTcp → buf.mem 0 &&& newC = 0 → Ready comp
  /-- A packet holds its IP header and checksum. -/
  whole : ∀ p, parts? buf type comp = some p → max p.hlen 12 ≤ p.data + p.csHlen
  /-- The header fits in front of the frame, or is whole and fits a new mbuf. -/
  room : ∀ p, parts? buf type comp = some p →
    p.csHlen ≤ space ∨ max p.hlen 12 ≤ p.csHlen ∧ p.csHlen ≤ mhlen

/-! ## Saved headers -/

/-- What holds of every saved header: it fits and has whole words. -/
structure Saved (cs : Rstate) : Prop where
  le : cs.csHlen ≤ maxHdr
  dvd : 4 ∣ cs.csHlen

theorem Saved.savedHeader {ip : Mem} (g : Mem) (cs : Rstate) (h : hdrLen ip ≤ maxHdr) :
    Saved (savedHeader g cs (hdrLen ip)) where
  le := h
  dvd := ⟨_, rfl⟩

/-- The invariant of the receive side. -/
def AllSaved (comp : Slcompress) : Prop := ∀ i, Saved (comp.rstate i)

theorem AllSaved.setRstate {comp : Slcompress} (h : AllSaved comp) (i : Slot) {cs : Rstate}
    (hcs : Saved cs) : AllSaved (Slcompress.setRstate comp i cs) := by
  intro j
  by_cases hji : j = i
  · subst hji
    simpa [Slcompress.setRstate] using hcs
  · simpa [Slcompress.setRstate, Function.update_of_ne hji] using h j

theorem selectState_rstate {mem : Mem} {comp comp' : Slcompress} {cp : ℕ}
    (h : selectState mem comp = .go comp' cp) : comp'.rstate = comp.rstate := by
  rw [selectState] at h
  split_ifs at h
  · obtain ⟨rfl, -⟩ := Selected.go.inj h
    rfl
  · obtain ⟨rfl, -⟩ := Selected.go.inj h
    rfl

section keep

variable {comp comp' : Slcompress} (h : AllSaved comp)

include h

theorem AllSaved.recvUncompressed {buf : Buf}
    (hr : (recvUncompressed buf comp).map Received.comp = .ok comp') : AllSaved comp' := by
  rw [Slcompress.recvUncompressed] at hr
  split at hr
  · obtain rfl := Except.ok.inj hr
    exact h
  dsimp only at hr
  split_ifs at hr with hlen
  · cases hr
  · obtain rfl := Except.ok.inj hr
    have h' : AllSaved { comp with lastRecv := buf.mem 9, toss := false } := h
    exact h'.setRstate _ (.savedHeader _ _ (Nat.not_lt.mp hlen))

theorem AllSaved.decoded (i : Slot) (g : Mem) :
    AllSaved (Slcompress.setRstate comp i { csHlen := (comp.rstate i).csHlen, csHdr := g }) :=
  h.setRstate i ⟨(h i).le, (h i).dvd⟩

theorem AllSaved.recvCompressed {buf : Buf} {cp : ℕ}
    (hr : (recvCompressed buf comp cp).map Received.comp = .ok comp') : AllSaved comp' := by
  rw [Slcompress.recvCompressed] at hr
  split at hr
  · cases hr
  dsimp only at hr
  split_ifs at hr
  · obtain rfl := Except.ok.inj hr
    exact h.decoded _ _
  · cases hr
  · obtain rfl := Except.ok.inj hr
    exact h.decoded _ _

theorem AllSaved.mrecvUncompressed {m : Chain}
    (hr : (mrecvUncompressed m comp).map Mreceived.comp = .ok comp') : AllSaved comp' := by
  rw [Slcompress.mrecvUncompressed] at hr
  split at hr
  · obtain rfl := Except.ok.inj hr
    exact h
  dsimp only at hr
  split_ifs at hr with hlen hshort
  · obtain rfl := Except.ok.inj hr
    exact h
  · cases hr
  · obtain rfl := Except.ok.inj hr
    have h' : AllSaved { comp with lastRecv := m.mem 9, toss := false } := h
    exact h'.setRstate _ (.savedHeader _ _ (Nat.not_lt.mp hlen))

theorem AllSaved.mrecvCompressed {m : Chain} {mget : Option Mem} {cp : ℕ}
    (hr : (mrecvCompressed m mget comp cp).map Mreceived.comp = .ok comp') : AllSaved comp' := by
  rw [Slcompress.mrecvCompressed] at hr
  split at hr
  · cases hr
  rename_i i hi
  simp only [if_neg (Nat.not_lt.mpr (h i).le)] at hr
  split_ifs at hr
  · obtain rfl := Except.ok.inj hr
    exact h.decoded _ _
  split at hr
  · obtain rfl := Except.ok.inj hr
    exact h.decoded _ _
  · obtain rfl := Except.ok.inj hr
    exact h.decoded _ _

theorem AllSaved.recv {f : Frame} (hf : recv comp f = .ok comp') : AllSaved comp' := by
  have hgo : ∀ {mem : Mem} {comp1 : Slcompress} {cp : ℕ},
      selectState mem comp = .go comp1 cp → AllSaved comp1 := by
    intro mem comp1 cp hs
    unfold AllSaved
    rw [selectState_rstate hs]
    exact h
  cases f with
  | flat type buf =>
    simp only [Slcompress.recv, slUncompressTcp] at hf
    split_ifs at hf
    · exact h.recvUncompressed hf
    · cases hs : selectState buf.mem comp with
      | bad =>
        rw [hs] at hf
        obtain rfl := Except.ok.inj hf
        exact h
      | tossed =>
        rw [hs] at hf
        obtain rfl := Except.ok.inj hf
        exact h
      | go comp1 cp =>
        rw [hs] at hf
        exact (hgo hs).recvCompressed hf
    · obtain rfl := Except.ok.inj hf
      exact h
  | chain type m mget =>
    simp only [Slcompress.recv, slMuncompressTcp] at hf
    split_ifs at hf
    · exact h.mrecvUncompressed hf
    · cases hs : selectState m.mem comp with
      | bad =>
        rw [hs] at hf
        obtain rfl := Except.ok.inj hf
        exact h
      | tossed =>
        rw [hs] at hf
        obtain rfl := Except.ok.inj hf
        exact h
      | go comp1 cp =>
        rw [hs] at hf
        exact (hgo hs).mrecvCompressed hf
    · obtain rfl := Except.ok.inj hf
      exact h

end keep

/-! ## The same packet -/

theorem setIpSum_congr {a b : Mem} {hlen n : ℕ} (hab : ∀ i, i < n → a i = b i) (hn : hlen ≤ n)
    {i : ℕ} (hi : i < n) : setIpSum a hlen i = setIpSum b hlen i := by
  have hsum : wordSum a (hlen / 2) = wordSum b (hlen / 2) :=
    wordSum_congr fun j hj => hab j (by omega)
  simp only [setIpSum, hsum, set8, hab i hi]

theorem setIpSum_of_le {a : Mem} {hlen i : ℕ} (hi : 12 ≤ i) : setIpSum a hlen i = a i := by
  rw [setIpSum, set8_apply_of_ne _ (by omega), set8_apply_of_ne _ (by omega)]

theorem ipLen_eq {len cp : ℕ} (hcp : cp ≤ len) (csHlen : ℕ) :
    (BitVec.ofNat 32 len - BitVec.ofNat 32 cp + BitVec.ofNat 32 csHlen).setWidth 16 =
      BitVec.ofNat 16 (len - cp + csHlen) := by
  have hlen : BitVec.ofNat 32 len = BitVec.ofNat 32 (len - cp) + BitVec.ofNat 32 cp := by
    rw [← BitVec.ofNat_add, Nat.sub_add_cancel hcp]
  rw [hlen, BitVec.add_sub_cancel, ← BitVec.ofNat_add, BitVec.setWidth_ofNat_of_le (by decide)]

section packet

variable {buf : Buf} {cs : Rstate} {cp hlen space : ℕ}

theorem rebuilt_apply {i : ℕ} (hi : i < buf.len - cp + cs.csHlen) :
    (rebuilt buf cs cp).mem i =
      if i < cs.csHlen then cs.csHdr i else buf.mem (cp + (i - cs.csHlen)) := by
  simp only [rebuilt]
  by_cases h : i < cs.csHlen
  · rw [if_pos h, if_pos h]
  · rw [if_neg h, if_neg h, if_pos (by omega)]

theorem prepended_of_le (hwhole : hlen ≤ buf.len - cp + cs.csHlen) (hspace : cs.csHlen ≤ space)
    (mget : Option Mem) :
    ∃ out, prepended (buf.chain space) cs cp mget = some out ∧
      Chain.bytes { out with mem := setIpSum out.mem hlen } =
        (List.range (buf.len - cp + cs.csHlen)).map (setIpSum (rebuilt buf cs cp).mem hlen) := by
  refine ⟨_, if_pos hspace, ?_⟩
  simp only [Chain.bytes, Buf.chain, append_nil]
  refine map_congr_left fun i hi => ?_
  refine setIpSum_congr (fun j hj => ?_) hwhole (mem_range.mp hi)
  rw [rebuilt_apply hj]

/-- **A new mbuf.** When the header goes to an mbuf of its own, with its checksum, the bytes are
the same. -/
theorem prepended_of_lt (hspace : space < cs.csHlen) (hwhole : max hlen 12 ≤ cs.csHlen)
    (new : Mem) :
    ∃ out, prepended (buf.chain space) cs cp (some new) = some out ∧
      Chain.bytes { out with mem := setIpSum out.mem hlen } =
        (List.range (buf.len - cp + cs.csHlen)).map (setIpSum (rebuilt buf cs cp).mem hlen) := by
  refine ⟨_, if_neg (Nat.not_le.mpr hspace), ?_⟩
  have hmax := max_le_iff.mp hwhole
  simp only [Chain.bytes, Buf.chain, append_nil]
  rw [Nat.add_comm (buf.len - cp), range_add, map_append, map_map]
  congr 1
  · refine map_congr_left fun i hi => ?_
    refine setIpSum_congr (n := cs.csHlen) (fun j hj => ?_) hmax.1 (mem_range.mp hi)
    rw [rebuilt_apply (by omega)]
    simp only [if_pos hj]
  · refine map_congr_left fun i hi => ?_
    have hlt := mem_range.mp hi
    rw [Function.comp_apply, setIpSum_of_le (by omega), rebuilt_apply (by omega),
      if_neg (by omega), Nat.add_sub_cancel_left]

end packet

/-! ## One frame -/

section frame

variable {buf : Buf} {space : ℕ} {type : BitVec 32} {comp : Slcompress}

theorem parts?_of_ne (h : type ≠ typeCompressedTcp) : parts? buf type comp = none := if_neg h

theorem parts?_of_go {comp' : Slcompress} {cp : ℕ} {i : Slot}
    (hs : selectState buf.mem comp = .go comp' cp) (hi : slot? comp'.lastRecv = some i) :
    parts? buf typeCompressedTcp comp =
      if buf.len < (decodeHeader buf.mem (comp'.rstate i).csHdr (comp'.rstate i).csHlen cp
        (buf.mem 0)).2 then none
      else some
        { data := buf.len - (decodeHeader buf.mem (comp'.rstate i).csHdr
            (comp'.rstate i).csHlen cp (buf.mem 0)).2
          csHlen := (comp'.rstate i).csHlen, hlen := th (comp'.rstate i).csHdr } := by
  rw [parts?, if_pos rfl, hs]
  dsimp only
  rw [hi]

theorem agree_of_reject (comp' : Slcompress) (hparts : parts? buf type comp = none)
    (h : slUncompressTcp buf type comp = .ok { len := 0, buf := buf, comp := comp' })
    (h' : ∀ mget, slMuncompressTcp (buf.chain space) mget type comp =
      .ok { m := none, comp := comp' }) : Agree buf space type comp where
  inside p hp := by rw [hparts] at hp; cases hp
  same new := ⟨_, _, h, h' (some new), rfl, rfl⟩

theorem savedHeader_congr {a b : Mem} {cs : Rstate} {hlen : ℕ} (hab : ∀ i, i < hlen → a i = b i) :
    savedHeader a cs hlen = savedHeader b cs hlen := by
  have hover : overlay a cs.csHdr 0 hlen = overlay b cs.csHdr 0 hlen := by
    funext i
    by_cases hi : 0 ≤ i ∧ i < 0 + hlen
    · rw [overlay_apply_of_mem hi, overlay_apply_of_mem hi, hab i (by omega)]
    · rw [overlay_apply_of_notMem hi, overlay_apply_of_notMem hi]
  rw [savedHeader, hover, savedHeader]

/-- The state an uncompressed frame for slot `i` leaves when its header is saved.
Source: sl_uncompress_tcp -/
def afterUncompressed (buf : Buf) (comp : Slcompress) (i : Slot) : Slcompress :=
  let ip := set8 buf.mem 9 ipprotoTcp
  setRstate { comp with lastRecv := buf.mem 9, toss := false } i
    (savedHeader ip (comp.rstate i) (hdrLen ip))

theorem recvUncompressed_of_lt (hi : (buf.mem 9).toNat < maxStates) :
    slUncompressTcp buf typeUncompressedTcp comp =
      if maxHdr < hdrLen buf.mem then .error (.overrun (hdrLen buf.mem))
      else .ok
        { len := buf.len
          buf := { buf with mem := set8 buf.mem 9 ipprotoTcp }
          comp := afterUncompressed buf comp ⟨_, hi⟩ } := by
  rw [slUncompressTcp, if_pos rfl, recvUncompressed, slot?_of_lt hi]
  dsimp only [afterUncompressed]
  rw [hdrLen_set8_proto]

theorem bytes_chain (mem : Mem) :
    Chain.bytes { buf.chain space with mem := mem } = (List.range buf.len).map mem :=
  append_nil _

theorem mrecvUncompressed_of_lt (hi : (buf.mem 9).toNat < maxStates) (mget : Option Mem) :
    slMuncompressTcp (buf.chain space) mget typeUncompressedTcp comp =
      if maxHdr < hdrLen buf.mem then
        .ok { m := none, comp := bad { comp with lastRecv := buf.mem 9, toss := false } }
      else if buf.len < hdrLen buf.mem then .error .panic
      else .ok
        { m := some { buf.chain space with mem := set8 buf.mem 9 ipprotoTcp }
          comp := afterUncompressed buf comp ⟨_, hi⟩ } := by
  rw [slMuncompressTcp, if_pos rfl, mrecvUncompressed, show (buf.chain space).mem = buf.mem from rfl,
    slot?_of_lt hi]
  dsimp only [afterUncompressed]
  rw [hdrLen_set8_proto, bytes_chain, length_map, length_range]
  by_cases hover : maxHdr < hdrLen buf.mem
  · rw [if_pos hover, if_pos hover]
  rw [if_neg hover, if_neg hover]
  by_cases hshort : buf.len < hdrLen buf.mem
  · rw [if_pos hshort, if_pos hshort]
  rw [if_neg hshort, if_neg hshort]
  congr 3
  refine savedHeader_congr fun k hk => ?_
  simp [getD_eq_getElem?_getD, show k < buf.len by omega]

/-- **An uncompressed frame for a slot**: the two agree exactly when it holds the headers it
announces and these fit. -/
theorem agree_uncompressed (hi : (buf.mem 9).toNat < maxStates) :
    Agree buf space typeUncompressedTcp comp ↔
      0 < buf.len ∧ hdrLen buf.mem ≤ buf.len ∧ hdrLen buf.mem ≤ maxHdr := by
  constructor
  · intro h
    obtain ⟨r, r', hr, hr', hpacket, -⟩ := h.same fun _ => 0
    rw [recvUncompressed_of_lt hi] at hr
    rw [mrecvUncompressed_of_lt hi] at hr'
    by_cases hover : maxHdr < hdrLen buf.mem
    · rw [if_pos hover] at hr
      cases hr
    rw [if_neg hover] at hr hr'
    by_cases hshort : buf.len < hdrLen buf.mem
    · rw [if_pos hshort] at hr'
      cases hr'
    rw [if_neg hshort] at hr'
    obtain rfl := Except.ok.inj hr
    obtain rfl := Except.ok.inj hr'
    refine ⟨Nat.pos_of_ne_zero fun h0 => ?_, by omega, by omega⟩
    rw [Received.packet, if_pos h0] at hpacket
    cases hpacket
  · rintro ⟨hpos, hlen, hmax⟩
    refine ⟨fun p hp => ?_, fun new => ?_⟩
    · rw [parts?_of_ne (by decide)] at hp
      cases hp
    · rw [recvUncompressed_of_lt hi, if_neg (Nat.not_lt.mpr hmax), mrecvUncompressed_of_lt hi,
        if_neg (Nat.not_lt.mpr hmax), if_neg (Nat.not_lt.mpr hlen)]
      refine ⟨_, _, rfl, rfl, ?_, rfl⟩
      rw [Received.packet, if_neg (Nat.pos_iff_ne_zero.mp hpos), Mreceived.packet, Option.map_some,
        bytes_chain]

theorem inside_iff {p : Parts} (hcs : 4 ∣ p.csHlen) :
    p.Inside space ↔ max p.hlen 12 ≤ p.data + p.csHlen ∧
      (p.csHlen ≤ space ∨ max p.hlen 12 ≤ p.csHlen ∧ p.csHlen ≤ mhlen) := by
  unfold Parts.Inside mhAlign mhlen
  constructor
  · rintro ⟨hwhole, hroom⟩
    refine ⟨hwhole, ?_⟩
    by_cases hspace : p.csHlen ≤ space
    · exact .inl hspace
    have := hroom (by omega)
    split_ifs at this
    · exact .inr ⟨by omega, by omega⟩
    · exact .inr ⟨by omega, by omega⟩
  · rintro ⟨hwhole, hroom⟩
    refine ⟨hwhole, fun hspace => ?_⟩
    split_ifs
    · omega
    · omega

/-- **A compressed frame** whose state is chosen: the two agree exactly when the packet holds its
header and, where that goes to a new mbuf, the saved header does. -/
theorem agree_compressed (hsaved : AllSaved comp) {comp' : Slcompress} {cp : ℕ} {i : Slot}
    (hs : selectState buf.mem comp = .go comp' cp) (hi : slot? comp'.lastRecv = some i) :
    Agree buf space typeCompressedTcp comp ↔
      ∀ p, parts? buf typeCompressedTcp comp = some p → max p.hlen 12 ≤ p.data + p.csHlen ∧
        (p.csHlen ≤ space ∨ max p.hlen 12 ≤ p.csHlen ∧ p.csHlen ≤ mhlen) := by
  have hne : ¬ typeCompressedTcp = typeUncompressedTcp := by decide
  have hcs : Saved (comp'.rstate i) := by
    rw [selectState_rstate hs]
    exact hsaved i
  have hparts := parts?_of_go hs hi
  have hflat : slUncompressTcp buf typeCompressedTcp comp = recvCompressed buf comp' cp := by
    rw [slUncompressTcp, if_neg hne, if_pos rfl, hs]
  have hchain : ∀ mget, slMuncompressTcp (buf.chain space) mget typeCompressedTcp comp =
      mrecvCompressed (buf.chain space) mget comp' cp := by
    intro mget
    rw [slMuncompressTcp, if_neg hne, if_pos rfl, show (buf.chain space).mem = buf.mem from rfl, hs]
  simp only [recvCompressed, mrecvCompressed, hi, show (buf.chain space).mem = buf.mem from rfl,
    show (buf.chain space).len = buf.len from rfl,
    show (buf.chain space).pkthdrLen = BitVec.ofNat 32 buf.len from rfl,
    if_neg (Nat.not_lt.mpr hcs.le)] at hflat hchain
  obtain ⟨d, hd⟩ : ∃ d, decodeHeader buf.mem (comp'.rstate i).csHdr (comp'.rstate i).csHlen cp
    (buf.mem 0) = d := ⟨_, rfl⟩
  rw [hd] at hparts hflat
  simp only [hd] at hchain
  have hiff : (∀ p, parts? buf typeCompressedTcp comp = some p → p.Inside space) ↔
      ∀ p, parts? buf typeCompressedTcp comp = some p → max p.hlen 12 ≤ p.data + p.csHlen ∧
        (p.csHlen ≤ space ∨ max p.hlen 12 ≤ p.csHlen ∧ p.csHlen ≤ mhlen) := by
    refine forall_congr' fun p => imp_congr_right fun hp => ?_
    rw [hparts] at hp
    split_ifs at hp
    obtain rfl := Option.some.inj hp
    exact inside_iff hcs.dvd
  rw [← hiff]
  refine ⟨fun h => h.inside, fun h => ⟨h, fun new => ?_⟩⟩
  rw [hiff] at h
  by_cases hshort : buf.len < d.2
  · rw [if_pos hshort] at hflat
    simp only [if_pos hshort] at hchain
    exact ⟨_, _, hflat, hchain (some new), rfl, rfl⟩
  rw [if_neg hshort] at hparts hflat
  simp only [if_neg hshort, ipLen_eq (Nat.not_lt.mp hshort)] at hchain
  obtain ⟨hwhole, hroom⟩ := h _ hparts
  dsimp only at hwhole hroom
  have hwhole := max_le_iff.mp hwhole
  -- `cs->cs_ip` as both store it before they copy it
  obtain ⟨cs, hcs'⟩ : ∃ cs : Rstate, { comp'.rstate i with
      csHdr := set16 d.1 2 (BitVec.ofNat 16 (buf.len - d.2 + (comp'.rstate i).csHlen)) } = cs :=
    ⟨_, rfl⟩
  have hlen : (comp'.rstate i).csHlen = cs.csHlen := by rw [← hcs']
  rw [hcs', hlen] at hflat
  simp only [hcs'] at hchain
  rw [hlen] at hwhole hroom
  obtain ⟨out, hout, hbytes⟩ : ∃ out,
      prepended (buf.chain space) cs d.2 (some new) = some out ∧
        Chain.bytes { out with mem := setIpSum out.mem (th (comp'.rstate i).csHdr) } =
          (range (buf.len - d.2 + cs.csHlen)).map
            (setIpSum (rebuilt buf cs d.2).mem (th (comp'.rstate i).csHdr)) := by
    by_cases hspace : cs.csHlen ≤ space
    · exact prepended_of_le hwhole.1 hspace _
    · exact prepended_of_lt (Nat.not_le.mp hspace) (hroom.resolve_left hspace).1 new
  have hchain' := hchain (some new)
  simp only [hout] at hchain'
  refine ⟨_, _, hflat, hchain', ?_, rfl⟩
  rw [Received.packet, if_neg (show ¬ buf.len - d.2 + cs.csHlen = 0 by omega), Mreceived.packet,
    Option.map_some, hbytes]

/-! ## All frames -/

theorem plain_of_reject (hparts : parts? buf type comp = none)
    (hu : type = typeUncompressedTcp → ¬ (buf.mem 9).toNat < maxStates)
    (hc : type = typeCompressedTcp → buf.mem 0 &&& newC = 0 → Ready comp) :
    Plain buf space type comp where
  uncompressed h hi := absurd hi (hu h)
  index := hc
  whole p hp := by
    rw [hparts] at hp
    cases hp
  room p hp := by
    rw [hparts] at hp
    cases hp

theorem agree_iff_compressed (hsaved : AllSaved comp) :
    Agree buf space typeCompressedTcp comp ↔ Plain buf space typeCompressedTcp comp := by
  have hne : ¬ typeCompressedTcp = typeUncompressedTcp := by decide
  have hmem : (buf.chain space).mem = buf.mem := rfl
  -- once a valid state is chosen, being plain is a matter of the parts
  have hgo : (buf.mem 0 &&& newC = 0 → Ready comp) → ∀ (comp' : Slcompress) (cp : ℕ) {i : Slot},
      selectState buf.mem comp = .go comp' cp → slot? comp'.lastRecv = some i →
        (Agree buf space typeCompressedTcp comp ↔ Plain buf space typeCompressedTcp comp) := by
    intro hready comp' cp i hs hi
    rw [agree_compressed hsaved hs hi]
    exact ⟨fun h => ⟨fun h => absurd h hne, fun _ => hready, fun p hp => (h p hp).1,
      fun p hp => (h p hp).2⟩, fun h p hp => ⟨h.whole p hp, h.room p hp⟩⟩
  by_cases hC : buf.mem 0 &&& newC ≠ 0
  · by_cases hge : maxStates ≤ (buf.mem 1).toNat
    · have hs : selectState buf.mem comp = .bad := by
        rw [selectState, if_pos hC, if_pos hge]
      have hparts : parts? buf typeCompressedTcp comp = none := by
        rw [parts?, if_pos rfl, hs]
      refine iff_of_true (agree_of_reject (bad comp) hparts ?_ fun mget => ?_)
        (plain_of_reject hparts (fun h => absurd h hne) fun _ h => absurd h hC)
      · rw [slUncompressTcp, if_neg hne, if_pos rfl, hs]
      · rw [slMuncompressTcp, if_neg hne, if_pos rfl, hmem, hs]
    · refine hgo (fun h => absurd h hC) { comp with toss := false, lastRecv := buf.mem 1 } 2 ?_
        (slot?_of_lt (Nat.not_le.mp hge))
      rw [selectState, if_pos hC, if_neg hge]
  · have h0 := not_not.mp hC
    by_cases htoss : comp.toss = true
    · have hs : selectState buf.mem comp = .tossed := by
        rw [selectState, if_neg hC, if_pos htoss]
      have hparts : parts? buf typeCompressedTcp comp = none := by
        rw [parts?, if_pos rfl, hs]
      refine iff_of_true (agree_of_reject comp hparts ?_ fun mget => ?_)
        (plain_of_reject hparts (fun h => absurd h hne) fun _ _ => .inl htoss)
      · rw [slUncompressTcp, if_neg hne, if_pos rfl, hs]
      · rw [slMuncompressTcp, if_neg hne, if_pos rfl, hmem, hs]
    · have hs : selectState buf.mem comp = .go comp 1 := by
        rw [selectState, if_neg hC, if_neg htoss]
      by_cases hi : comp.lastRecv.toNat < maxStates
      · exact hgo (fun _ => .inr hi) comp 1 hs (slot?_of_lt hi)
      -- `rstate[last_recv]` is outside the array
      refine iff_of_false (fun h => ?_) fun h => ?_
      · obtain ⟨r, r', hr, -⟩ := h.same fun _ => 0
        rw [slUncompressTcp, if_neg hne, if_pos rfl, hs] at hr
        dsimp only at hr
        rw [recvCompressed, slot?_of_ge hi] at hr
        cases hr
      · rcases h.index rfl h0 with h | h
        · exact htoss h
        · exact hi h

/-- **One frame.** With the saved headers in order the two functions agree exactly on a plain one. -/
theorem agree_iff_of_allSaved (hsaved : AllSaved comp) :
    Agree buf space type comp ↔ Plain buf space type comp := by
  by_cases hc : type = typeCompressedTcp
  · subst hc
    exact agree_iff_compressed hsaved
  have hparts : parts? buf type comp = none := parts?_of_ne hc
  by_cases hu : type = typeUncompressedTcp
  · subst hu
    by_cases hi : (buf.mem 9).toNat < maxStates
    · rw [agree_uncompressed hi]
      refine ⟨fun h => ⟨fun _ _ => h, fun h => absurd h hc, fun p hp => ?_, fun p hp => ?_⟩,
        fun h => h.uncompressed rfl hi⟩
      · rw [hparts] at hp
        cases hp
      · rw [hparts] at hp
        cases hp
    · refine iff_of_true (agree_of_reject (bad comp) hparts ?_ fun mget => ?_)
        (plain_of_reject hparts (fun _ => hi) fun h => absurd h hc)
      · rw [slUncompressTcp, if_pos rfl, recvUncompressed, slot?_of_ge hi]
      · rw [slMuncompressTcp, if_pos rfl, mrecvUncompressed,
          show (buf.chain space).mem = buf.mem from rfl, slot?_of_ge hi]
  · refine iff_of_true (agree_of_reject (bad comp) hparts ?_ fun mget => ?_)
      (plain_of_reject hparts (fun h => absurd h hu) fun h => absurd h hc)
    · rw [slUncompressTcp, if_neg hu, if_neg hc]
    · rw [slMuncompressTcp, if_neg hu, if_neg hc]

end frame

/-! ## All states -/

/-- What changes a state: a frame received by either function, or the transmit side, which has
fields of its own. -/
inductive Next (comp : Slcompress) : Slcompress → Prop where
  | recv {comp' : Slcompress} (f : Frame) : recv comp f = .ok comp' → Next comp comp'
  | send (lastCs : Slot) (lastXmit : Byte) (tstate : Slot → Tstate) :
      Next comp { comp with lastCs := lastCs, lastXmit := lastXmit, tstate := tstate }

theorem allSaved_of_reach {comp : Slcompress} (h : Reach (· = slCompressInit) Next comp) :
    AllSaved comp := by
  refine h.invariant ?_ ?_
  · rintro _ rfl i
    exact ⟨Nat.zero_le _, 0, rfl⟩
  · intro comp comp' _ hsaved hnext
    cases hnext with
    | recv f hf => exact hsaved.recv hf
    | send lastCs lastXmit tstate => exact hsaved

/-- A compressed frame of slot 0 with sixteen bytes of data, the first frame of all. -/
def explicitFrame : Buf where
  addr := 0
  mem := fun i => if i = 0 then newC else 0
  len := 20

/-- An uncompressed frame of 120 bytes for slot 0, all of them header. -/
def overlongFrame : Buf where
  addr := 0
  mem := fun i => if i = 0 then 0x4f else if i = 72 then 0xf0 else 0
  len := 120

end Bsd386.Net.Slcompress
