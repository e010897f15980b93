import Mathlib.Data.Int.Notation
import Mathlib.Tactic.Common

/-!
# Reading a packet: a flat buffer or an mbuf chain

`bpf_filter` gets one pointer `p`. With `buflen ≠ 0` it is a byte buffer; with `buflen = 0`
(as `bpf_mtap` calls it) a load that does not fit goes to the slow path, which casts `p` to
`struct mbuf *`. `Packet` keeps both readings of the pointer.

A C access `q[i]` is a read of memory at an offset from `q`, whatever `i` is, so the memory
around a pointer is a function of an integer offset: bytes outside the buffer or outside an
mbuf's `m_len` bytes are whatever lies there. This is what lets the model say which byte the
source reads, also where it reads the wrong one: `m_xword` and `m_xhalf` add the offset `k` to
`cp` and then index `cp` by `k` again.

The seven load forms are the functions `ldW` to `ldxMsh`; `none` is the source's `return 0`.
-/

namespace Bsd386.Net.Bpf

abbrev Byte := BitVec 8

/-- The memory around a pointer, by offset from it. -/
abbrev Ptr := ℤ → Byte

/-- What the filter reads of a `struct mbuf`: the length and the data at `mtod(m, u_char *)`.
The next pointer is the rest of the chain.
Source: mbuf.h, struct mbuf -/
structure Mbuf where
  /-- `m_len`. -/
  mLen : ℕ
  /-- `mtod(m, u_char *)`. -/
  data : Ptr

/-- The argument `p` of `bpf_filter`, as a byte pointer and as an mbuf chain.
Source: bpf_filter -/
structure Packet where
  /-- `p` as a `u_char *`. -/
  bytes : Ptr
  /-- `p` as a `struct mbuf *`, with its successors. -/
  chain : List Mbuf

/-- The two bytes at `q[i]`, most significant first.
Source: EXTRACT_SHORT -/
def extractShort (q : Ptr) (i : ℤ) : BitVec 16 := q i ++ q (i + 1)

/-- The four bytes at `q[i]`, most significant first.
Source: EXTRACT_LONG -/
def extractLong (q : Ptr) (i : ℤ) : BitVec 32 := q i ++ q (i + 1) ++ q (i + 2) ++ q (i + 3)

/-- The chain walk shared by `MINDEX`, `m_xword` and `m_xhalf`: step over whole mbufs while
`k >= len`. The result is the mbuf reached, its successors and the offset in it; `none` when
the chain ends.
Source: MINDEX -/
def mindex : List Mbuf → ℤ → Option (Mbuf × List Mbuf × ℤ)
  | [], _ => none
  | m :: ms, k => if (m.mLen : ℤ) ≤ k then mindex ms (k - m.mLen) else some (m, ms, k)

/-- `m_xword`; `none` is `*err = 1`. In the straddling cases `cp` is `mtod(m) + k` and the
source reads `cp[k]`, `cp[k + 1]`, `cp[k + 2]`.
Source: m_xword -/
def mXword (chain : List Mbuf) (k : ℤ) : Option (BitVec 32) :=
  match mindex chain k with
  | none => none
  | some (m, rest, k) =>
    let cp : Ptr := fun i => m.data (k + i)
    if 4 ≤ (m.mLen : ℤ) - k then some (extractLong cp 0)
    else
      match rest with
      | [] => none
      | m0 :: _ =>
        if (m0.mLen : ℤ) + m.mLen - k < 4 then none
        else
          let np := m0.data
          if (m.mLen : ℤ) - k = 1 then some (cp k ++ np 0 ++ np 1 ++ np 2)
          else if (m.mLen : ℤ) - k = 2 then some (cp k ++ cp (k + 1) ++ np 0 ++ np 1)
          else some (cp k ++ cp (k + 1) ++ cp (k + 2) ++ np 0)

/-- `m_xhalf`; `none` is `*err = 1`.
Source: m_xhalf -/
def mXhalf (chain : List Mbuf) (k : ℤ) : Option (BitVec 16) :=
  match mindex chain k with
  | none => none
  | some (m, rest, k) =>
    let cp : Ptr := fun i => m.data (k + i)
    if 2 ≤ (m.mLen : ℤ) - k then some (extractShort cp 0)
    else
      match rest with
      | [] => none
      | m0 :: _ => some (cp k ++ m0.data 0)

/-- The byte at `k` of a chain, as `MINDEX` and an access to the mbuf it reached read it.
Source: MINDEX -/
def mXbyte (chain : List Mbuf) (k : ℤ) : Option Byte :=
  match mindex chain k with
  | none => none
  | some (m, _, k) => some (m.data k)

/-! ## The load forms

`k` is an `int`; `k + sizeof(long) > buflen` and `k >= buflen` are unsigned comparisons. -/

/-- `BPF_LD|BPF_W|BPF_ABS` and `BPF_LD|BPF_W|BPF_IND`.
Source: bpf_filter -/
def ldW (p : Packet) (buflen k : BitVec 32) : Option (BitVec 32) :=
  if buflen < k + 4 then
    if buflen ≠ 0 then none else mXword p.chain k.toInt
  else some (extractLong p.bytes k.toInt)

/-- `BPF_LD|BPF_H|BPF_ABS`: the slow path does not look at `merr`, and `m_xhalf` returns 0
with it.
Source: bpf_filter -/
def ldHAbs (p : Packet) (buflen k : BitVec 32) : Option (BitVec 32) :=
  if buflen < k + 2 then
    if buflen ≠ 0 then none else some (((mXhalf p.chain k.toInt).getD 0).zeroExtend 32)
  else some ((extractShort p.bytes k.toInt).zeroExtend 32)

/-- `BPF_LD|BPF_H|BPF_IND`.
Source: bpf_filter -/
def ldHInd (p : Packet) (buflen k : BitVec 32) : Option (BitVec 32) :=
  if buflen < k + 2 then
    if buflen ≠ 0 then none else (mXhalf p.chain k.toInt).map (·.zeroExtend 32)
  else some ((extractShort p.bytes k.toInt).zeroExtend 32)

/-- `BPF_LD|BPF_B|BPF_ABS`.
Source: bpf_filter -/
def ldBAbs (p : Packet) (buflen k : BitVec 32) : Option (BitVec 32) :=
  if buflen ≤ k then
    if buflen ≠ 0 then none else (mXbyte p.chain k.toInt).map (·.zeroExtend 32)
  else some ((p.bytes k.toInt).zeroExtend 32)

/-- `BPF_LD|BPF_B|BPF_IND`: the slow path reads a `char`, which is signed.
Source: bpf_filter -/
def ldBInd (p : Packet) (buflen k : BitVec 32) : Option (BitVec 32) :=
  if buflen ≤ k then
    if buflen ≠ 0 then none else (mXbyte p.chain k.toInt).map (·.signExtend 32)
  else some ((p.bytes k.toInt).zeroExtend 32)

/-- `BPF_LDX|BPF_MSH|BPF_B`.
Source: bpf_filter -/
def ldxMsh (p : Packet) (buflen k : BitVec 32) : Option (BitVec 32) :=
  if buflen ≤ k then
    if buflen ≠ 0 then none
    else (mXbyte p.chain k.toInt).map fun b => (b.signExtend 32 &&& (0xf : BitVec 32)) <<< 2
  else some (((p.bytes k.toInt).zeroExtend 32 &&& (0xf : BitVec 32)) <<< 2)

end Bsd386.Net.Bpf
