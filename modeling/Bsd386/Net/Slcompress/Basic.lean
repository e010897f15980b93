import Bsd386.Lib.Bytes
import Mathlib.Data.Fintype.Basic
import Mathlib.Data.List.GetD

/-!
# TCP/IP header compression: the state and the number codings

The data of `sys/net/slcompress.h`: `struct cstate`, `struct slcompress`, the packet types and
the bits of the change mask, with the header fields of `netinet/ip.h` and `netinet/tcp.h` that
the two ends read, and the variable length coding of the `ENCODE` and `DECODE` macros.

A header is the memory from its first byte on, so a field is an offset into it: the IP header
from 0, the TCP header from `th`. Pointers to `cstate`s of the transmit side are elements of
`Slot`; the receive side indexes `rstate` with a byte, so an index there can be out of range.
The statistics counters are left out: nothing reads them.

Source: `sys/net/slcompress.c`.
-/

namespace Bsd386.Net.Slcompress

open Lib.Bytes BitVec List

/-! ## Constants -/

/-- `MAX_STATES` -/
abbrev maxStates : ℕ := 16

/-- `MAX_HDR`, which is `MLEN`: an mbuf of 128 bytes less the 20 of its `m_hdr`.
Source: slcompress.h, MAX_HDR; mbuf.h, MLEN -/
abbrev maxHdr : ℕ := 108

/-- A `cstate` of one side, by its place in the array. -/
abbrev Slot := Fin maxStates

/-- `TYPE_IP` -/
def typeIp : BitVec 32 := 0x40

/-- `TYPE_UNCOMPRESSED_TCP` -/
def typeUncompressedTcp : BitVec 32 := 0x70

/-- `TYPE_COMPRESSED_TCP` -/
def typeCompressedTcp : BitVec 32 := 0x80

/-- `NEW_C`: the connection id follows. -/
def newC : Byte := 0x40

/-- `NEW_I`: the IP ID did not go up by one. -/
def newI : Byte := 0x20

/-- `NEW_S`: the sequence number changed. -/
def newS : Byte := 0x08

/-- `NEW_A`: the acknowledgement changed. -/
def newA : Byte := 0x04

/-- `NEW_W`: the window changed. -/
def newW : Byte := 0x02

/-- `NEW_U`: the urgent bit is set. -/
def newU : Byte := 0x01

/-- `SPECIAL_I`: echoed interactive traffic. -/
def specialI : Byte := newS ||| newW ||| newU

/-- `SPECIAL_D`: unidirectional data. -/
def specialD : Byte := newS ||| newA ||| newW ||| newU

/-- `SPECIALS_MASK` -/
def specialsMask : Byte := newS ||| newA ||| newW ||| newU

/-- `TCP_PUSH_BIT` -/
def tcpPushBit : Byte := 0x10

/-- `TH_PUSH` -/
def thPush : Byte := 0x08

/-- `TH_ACK` -/
def thAckBit : Byte := 0x10

/-- `TH_URG` -/
def thUrg : Byte := 0x20

/-- `TH_SYN|TH_FIN|TH_RST|TH_ACK`: the flags a compressible packet is tested for.
Source: tcp.h; sl_compress_tcp -/
def thControl : Byte := 0x02 ||| 0x01 ||| 0x04 ||| thAckBit

/-- `IPPROTO_TCP` -/
def ipprotoTcp : Byte := 6

/-! ## Header fields -/

/-- `ip_hl`, the low nibble of the first byte. Source: ip.h, struct ip -/
def ipHl (h : Mem) : ℕ := (h 0).toNat % 16

/-- `ip_len` in host order. Source: ip.h, struct ip -/
def ipLen (h : Mem) : BitVec 16 := get16 h 2

/-- `ip_id` in host order. Source: ip.h, struct ip -/
def ipId (h : Mem) : BitVec 16 := get16 h 4

/-- `ip_off` in host order. Source: ip.h, struct ip -/
def ipOff (h : Mem) : BitVec 16 := get16 h 6

/-- The offset of the TCP header: `ip_hl` words. -/
def th (h : Mem) : ℕ := 4 * ipHl h

/-- `th_seq` of the TCP header at `t`. Source: tcp.h, struct tcphdr -/
def thSeq (h : Mem) (t : ℕ) : BitVec 32 := get32 h (t + 4)

/-- `th_ack` of the TCP header at `t`. Source: tcp.h, struct tcphdr -/
def thAck (h : Mem) (t : ℕ) : BitVec 32 := get32 h (t + 8)

/-- `th_off`, the high nibble of its byte. Source: tcp.h, struct tcphdr -/
def thOff (h : Mem) (t : ℕ) : ℕ := (h (t + 12)).toNat / 16

/-- `th_flags` of the TCP header at `t`. Source: tcp.h, struct tcphdr -/
def thFlags (h : Mem) (t : ℕ) : Byte := h (t + 13)

/-- `th_win` of the TCP header at `t`. Source: tcp.h, struct tcphdr -/
def thWin (h : Mem) (t : ℕ) : BitVec 16 := get16 h (t + 14)

/-- `th_sum` of the TCP header at `t`. Source: tcp.h, struct tcphdr -/
def thSum (h : Mem) (t : ℕ) : BitVec 16 := get16 h (t + 16)

/-- `th_urp` of the TCP header at `t`. Source: tcp.h, struct tcphdr -/
def thUrp (h : Mem) (t : ℕ) : BitVec 16 := get16 h (t + 18)

/-- `hlen`: both headers together, in bytes.
Source: sl_compress_tcp, sl_uncompress_tcp -/
def hdrLen (h : Mem) : ℕ := 4 * (ipHl h + thOff h (th h))

/-! ## The state -/

/-- A `struct cstate` of the transmit side. Its fourth field, `cs_hlen`, is used by the receive
side only.
Source: slcompress.h, struct cstate -/
structure Tstate where
  /-- `cs_next`: the next most recently used `cstate`. -/
  csNext : Slot
  /-- `cs_id`: the connection number of this state. -/
  csId : Byte
  /-- `cs_hdr`, also read as `cs_ip`: the last header of the conversation. -/
  csHdr : Mem

/-- A `struct cstate` of the receive side.
Source: slcompress.h, struct cstate -/
structure Rstate where
  /-- `cs_hlen`: the size of the saved header. -/
  csHlen : ℕ
  /-- `cs_hdr`, also read as `cs_ip`: the last header of the conversation. -/
  csHdr : Mem

/-- `struct slcompress`.
Source: slcompress.h, struct slcompress -/
structure Slcompress where
  /-- `last_cs`: the end of the list of transmit states. -/
  lastCs : Slot
  /-- `last_recv`: the last connection id received. -/
  lastRecv : Byte
  /-- `last_xmit`: the last connection id sent. -/
  lastXmit : Byte
  /-- Whether `SLF_TOSS` is set in `flags`. -/
  toss : Bool
  tstate : Slot → Tstate
  rstate : Slot → Rstate

theorem maxStates_ne_zero : maxStates ≠ 0 := by decide

local instance maxStatesNeZero : @NeZero ℕ Zero.ofOfNat0 maxStates := ⟨maxStates_ne_zero⟩

/-- `sl_compress_init`: everything zero but the ring of transmit states, their ids, and the two
last connection ids.
Source: sl_compress_init -/
def slCompressInit : Slcompress where
  lastCs := 0
  lastRecv := 255
  lastXmit := 255
  toss := false
  tstate i := { csNext := i - 1, csId := BitVec.ofNat 8 i, csHdr := fun _ => 0 }
  rstate _ := { csHlen := 0, csHdr := fun _ => 0 }

/-- A packet in one piece of memory: its address, the memory from there on, and its length. Code
may read past the length; what it finds there is in `mem` too.
Source: sl_uncompress_tcp (*bufp, len) -/
structure Buf where
  addr : ℕ
  mem : Mem
  len : ℕ

def Buf.bytes (b : Buf) : List Byte := (List.range b.len).map b.mem

/-- What ends a call outside the language: an index of `rstate` that is none, a copy of a header
longer than `MAX_HDR`, the panic of `m_copydata`, and a search that does not end. -/
inductive Fault where
  | rstateIndex (i : Byte)
  | overrun (hlen : ℕ)
  | panic
  | noReturn
deriving DecidableEq

/-! ## The number codings -/

/-- The three byte form. Source: ENCODE -/
def encodeLong (n : BitVec 32) : List Byte := [0, n.extractLsb' 8 8, n.extractLsb' 0 8]

/-- `ENCODE`, for a number known not to be zero. Source: ENCODE -/
def encode (n : BitVec 32) : List Byte :=
  if 256 ≤ (n.setWidth 16).toNat then encodeLong n else [n.extractLsb' 0 8]

/-- `ENCODEZ`, which sends zero in the long form too.
Source: ENCODEZ -/
def encodez (n : BitVec 32) : List Byte :=
  if 256 ≤ (n.setWidth 16).toNat ∨ (n.setWidth 16).toNat = 0 then encodeLong n
  else [n.extractLsb' 0 8]

/-- The number the `DECODE` macros read at `cp`, and where `cp` stands after it.
Source: DECODEL, DECODES, DECODEU -/
def decode (mem : Mem) (cp : ℕ) : BitVec 16 × ℕ :=
  if mem cp = 0 then (mem (cp + 1) ++ mem (cp + 2), cp + 3) else ((mem cp).setWidth 16, cp + 1)

/-- `DECODEL(f)`: the field goes up by the number. Source: DECODEL -/
def decodel (mem h : Mem) (f cp : ℕ) : Mem × ℕ :=
  (set32 h f (get32 h f + (decode mem cp).1.setWidth 32), (decode mem cp).2)

/-- `DECODES(f)`: the field goes up by the number. Source: DECODES -/
def decodes (mem h : Mem) (f cp : ℕ) : Mem × ℕ :=
  (set16 h f (get16 h f + (decode mem cp).1), (decode mem cp).2)

/-- `DECODEU(f)`: the field becomes the number. Source: DECODEU -/
def decodeu (mem h : Mem) (f cp : ℕ) : Mem × ℕ :=
  (set16 h f (decode mem cp).1, (decode mem cp).2)

/-- `l` stands in memory at `cp`. -/
def At (mem : Mem) (cp : ℕ) (l : List Byte) : Prop := ∀ i, i < l.length → mem (cp + i) = l.getD i 0

theorem at_append {mem : Mem} {cp : ℕ} {l1 l2 : List Byte} :
    At mem cp (l1 ++ l2) ↔ At mem cp l1 ∧ At mem (cp + l1.length) l2 := by
  constructor
  · intro h
    refine ⟨fun i hi => ?_, fun i hi => ?_⟩
    · rw [h i (by rw [length_append]; omega), getD_append _ _ _ _ hi]
    · have := h (l1.length + i) (by rw [length_append]; omega)
      rw [getD_append_right _ _ _ _ (by omega), Nat.add_sub_cancel_left] at this
      rw [Nat.add_assoc, this]
  · rintro ⟨h1, h2⟩ i hi
    rw [length_append] at hi
    rcases Nat.lt_or_ge i l1.length with hlt | hge
    · rw [h1 i hlt, getD_append _ _ _ _ hlt]
    have := h2 (i - l1.length) (by omega)
    rw [getD_append_right _ _ _ _ hge, ← this]
    congr 1
    omega

theorem decode_encodeLong {mem : Mem} {cp : ℕ} {n : BitVec 32} (h : At mem cp (encodeLong n)) :
    decode mem cp = (n.setWidth 16, cp + (encodeLong n).length) := by
  have h0 : mem cp = 0 := h 0 (by simp [encodeLong])
  have h1 : mem (cp + 1) = n.extractLsb' 8 8 := h 1 (by simp [encodeLong])
  have h2 : mem (cp + 2) = n.extractLsb' 0 8 := h 2 (by simp [encodeLong])
  rw [decode, if_pos h0, h1, h2]
  refine Prod.ext ?_ rfl
  apply eq_of_getLsbD_eq
  intro i hi
  simp only [getLsbD_append, getLsbD_extractLsb', getLsbD_setWidth]
  rcases Nat.lt_or_ge i 8 with h8 | h8
  · simp [h8, hi]
  · have : 8 + (i - 8) = i := by omega
    simp [Nat.not_lt.mpr h8, this, hi]
    omega

theorem decode_short {mem : Mem} {cp : ℕ} {n : BitVec 32} (h : At mem cp [n.extractLsb' 0 8])
    (hlt : (n.setWidth 16).toNat < 256) (hne : (n.setWidth 16).toNat ≠ 0) :
    decode mem cp = (n.setWidth 16, cp + 1) := by
  have h0 : mem cp = n.extractLsb' 0 8 := h 0 (by simp)
  have hval : (n.extractLsb' 0 8).toNat = (n.setWidth 16).toNat := by
    rw [toNat_setWidth] at hlt ⊢
    rw [extractLsb'_toNat]
    omega
  have hz : mem cp ≠ 0 := by
    intro hz
    rw [h0] at hz
    rw [hz] at hval
    exact hne hval.symm
  rw [decode, if_neg hz, h0]
  refine Prod.ext ?_ rfl
  apply eq_of_toNat_eq
  rw [toNat_setWidth, hval, Nat.mod_eq_of_lt (isLt _)]

theorem decode_encode {mem : Mem} {cp : ℕ} {n : BitVec 32} (h : At mem cp (encode n))
    (hne : (n.setWidth 16).toNat ≠ 0) :
    decode mem cp = (n.setWidth 16, cp + (encode n).length) := by
  rw [encode] at h ⊢
  split_ifs at h ⊢ with hlong
  · exact decode_encodeLong h
  · exact decode_short h (by omega) hne

theorem decode_encodez {mem : Mem} {cp : ℕ} {n : BitVec 32} (h : At mem cp (encodez n)) :
    decode mem cp = (n.setWidth 16, cp + (encodez n).length) := by
  rw [encodez] at h ⊢
  split_ifs at h ⊢ with hlong
  · exact decode_encodeLong h
  · exact decode_short h (by omega) (by omega)

theorem length_encode_le (n : BitVec 32) : (encode n).length ≤ 3 := by
  rw [encode]
  split_ifs <;> simp [encodeLong]

theorem length_encodez_le (n : BitVec 32) : (encodez n).length ≤ 3 := by
  rw [encodez]
  split_ifs <;> simp [encodeLong]

end Bsd386.Net.Slcompress
