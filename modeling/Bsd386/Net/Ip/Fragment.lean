import Bsd386.Net.Ip.Reass

/-!
# IP fragmentation

The part of `ip_output` from `sendit` on: a packet that does not fit the interface is cut into
fragments. An mbuf chain is the list of what its mbufs hold, the header included, and allocation
succeeds. `ip_hl`, `ip_off` and `ip_len` are fields beside the chain, in host order.

Source: `sys/netinet/ip_output.c`, `sys/kern/uipc_mbuf.c`.
-/

namespace Bsd386.Net.Ip

open List

/-- Why `ip_output` does not send: the packet is too large to go in one piece and must not or
cannot be fragmented, the panic of `m_copym` on a chain that is too short, or a loop over the
options that does not end.
Source: ip_output -/
inductive Stop where
  | emsgsize
  | panic
  | loops
deriving DecidableEq

/-! ## Options -/

/-- How far the loop over the options goes on: `cp[IPOPT_OLEN]`, which is `after`, the byte of
memory behind the header, when the option is the last byte of it.
Source: ip_dooptions -/
def optLen (after : UInt8) (opt : UInt8) (rest : List UInt8) : ℕ :=
  -- IPOPT_NOP
  if opt = 1 then 1 else (rest.headD after).toNat

/-- The loop over the options ends without an option of bad length: `ip_dooptions` accepts lengths
from 1 on, `ip_pcbopts` from 2 on.
Source: ip_dooptions -/
def acceptedLoop (after : UInt8) : ℕ → List UInt8 → Bool
  | _, [] => true
  | 0, _ :: _ => false
  | n + 1, opt :: rest =>
    -- IPOPT_EOL
    if opt = 0 then true
    else if optLen after opt rest = 0 ∨ rest.length + 1 < optLen after opt rest then false
    else acceptedLoop after n ((opt :: rest).drop (optLen after opt rest))

/-- `ip_dooptions` finds no option of bad length.
Source: ip_dooptions -/
def accepted (after : UInt8) (opts : List UInt8) : Bool := acceptedLoop after opts.length opts

/-- The loop of `ip_optcopy`: the options with the high bit are copied. `none` when it does not end.
Source: ip_optcopy -/
def optcopyLoop (after : UInt8) : ℕ → List UInt8 → Option (List UInt8)
  | _, [] => some []
  | 0, _ :: _ => none
  | n + 1, opt :: rest =>
    if opt = 0 then some []
    else
      -- bogus lengths should have been caught by ip_dooptions
      let optlen := min (optLen after opt rest) (rest.length + 1)
      (optcopyLoop after n ((opt :: rest).drop optlen)).map fun dp =>
        if opt &&& 0x80 ≠ 0 then (opt :: rest).take optlen ++ dp else dp

/-- Copy options, omitting those not copied during fragmentation. The rest of the last word is
`IPOPT_EOL`.
Source: ip_optcopy -/
def ipOptcopy (after : UInt8) (opts : List UInt8) : Option (List UInt8) :=
  (optcopyLoop after opts.length opts).map fun dp =>
    dp ++ List.replicate ((4 - dp.length % 4) % 4) 0

theorem optcopyLoop_spec {after : UInt8} {n : ℕ} {opts : List UInt8}
    (h : acceptedLoop after n opts = true) :
    ∃ dp, optcopyLoop after n opts = some dp ∧ dp.length ≤ opts.length := by
  induction n generalizing opts with
  | zero =>
    cases opts with
    | nil => exact ⟨[], rfl, le_rfl⟩
    | cons opt rest => exact absurd h (by simp [acceptedLoop])
  | succ n ih =>
    cases opts with
    | nil => exact ⟨[], rfl, le_rfl⟩
    | cons opt rest =>
      rw [acceptedLoop] at h
      rw [optcopyLoop]
      by_cases h0 : opt = 0
      · rw [if_pos h0]
        exact ⟨[], rfl, Nat.zero_le _⟩
      rw [if_neg h0] at h ⊢
      obtain ⟨k, hk⟩ : ∃ k, optLen after opt rest = k := ⟨_, rfl⟩
      rw [hk] at h ⊢
      by_cases hbad : k = 0 ∨ rest.length + 1 < k
      · rw [if_pos hbad] at h
        exact absurd h (by simp)
      rw [if_neg hbad] at h
      obtain ⟨dp, hdp, hlen⟩ := ih h
      have hmin : min k (rest.length + 1) = k := by omega
      rw [length_drop, length_cons] at hlen
      rw [hmin]
      dsimp only
      rw [hdp, Option.map_some]
      refine ⟨_, rfl, ?_⟩
      rw [length_cons]
      by_cases hcopied : opt &&& 0x80 ≠ 0
      · rw [if_pos hcopied, length_append, length_take, length_cons]
        omega
      · rw [if_neg hcopied]
        omega

/-- **What is copied of options that are accepted**: at most as much as there is, in whole words. -/
theorem optcopy_spec {after : UInt8} {opts : List UInt8} (h : accepted after opts = true)
    (hword : 4 ∣ opts.length) :
    ∃ dp, ipOptcopy after opts = some dp ∧ dp.length ≤ opts.length ∧ 4 ∣ dp.length := by
  obtain ⟨dp, hdp, hlen⟩ := optcopyLoop_spec h
  rw [ipOptcopy, hdp]
  refine ⟨_, rfl, ?_, ?_⟩
  · rw [length_append, length_replicate]
    omega
  · rw [length_append, length_replicate]
    omega

/-! ## Chains -/

/-- `m_copym` up to the first byte wanted: the chain from the mbuf on that has it, and where in that
mbuf it is.
Source: m_copym -/
def copySkip : ℕ → List (List UInt8) → Option (ℕ × List (List UInt8))
  | off, [] => if off = 0 then some (0, []) else none
  | off, x :: m =>
    if off = 0 ∨ off < x.length then some (off, x :: m) else copySkip (off - x.length) m

/-- `m_copym` from there on: an mbuf for each mbuf that has some of the bytes wanted.
Source: m_copym -/
def copyTake : ℕ → ℕ → List (List UInt8) → Option (List (List UInt8))
  | _, len, [] => if len = 0 then some [] else none
  | off, len, x :: m =>
    if len = 0 then some []
    else
      let n := min len (x.length - off)
      (copyTake 0 (len - n) m).map (((x.drop off).take n) :: ·)

/-- Make a copy of an mbuf chain starting `off` bytes from the beginning, continuing for `len`
bytes. `none` is the panic on a chain that is too short.
Source: m_copym -/
def mCopy (m : List (List UInt8)) (off len : ℕ) : Option (List (List UInt8)) :=
  match copySkip off m with
  | none => none
  | some (off, m) => copyTake off len m

/-- `m_adj`, trim from head. Source: m_adj -/
def trimHead : ℕ → List (List UInt8) → List (List UInt8)
  | _, [] => []
  | len, x :: m => if x.length ≤ len then [] :: trimHead (len - x.length) m else x.drop len :: m

/-- `m_adj`, find the mbuf with last data, adjust its length, and toss data from remaining mbufs on
chain.
Source: m_adj -/
def truncate : ℕ → List (List UInt8) → List (List UInt8)
  | _, [] => []
  | count, x :: m =>
    if count ≤ x.length then x.take count :: m.map fun _ => []
    else x :: truncate (count - x.length) m

/-- Trim `reqLen` bytes from head, or `-reqLen` bytes from tail: if the adjustment only affects the
last mbuf, then just adjust it.
Source: m_adj -/
def mAdj (m : List (List UInt8)) (reqLen : ℤ) : List (List UInt8) :=
  if 0 ≤ reqLen then trimHead reqLen.toNat m
  else
    let len := (-reqLen).toNat
    match m.getLast? with
    | none => []
    | some x =>
      if len ≤ x.length then m.dropLast ++ [x.take (x.length - len)]
      else truncate (m.flatten.length - len) m

theorem copySkip_spec {m : List (List UInt8)} {off : ℕ} (h : off ≤ m.flatten.length) :
    ∃ off' m', copySkip off m = some (off', m') ∧ m'.flatten.drop off' = m.flatten.drop off ∧
      (∀ x ∈ m'.head?, off' ≤ x.length) ∧ off' ≤ m'.flatten.length := by
  induction m generalizing off with
  | nil =>
    have h0 : off = 0 := Nat.le_zero.mp h
    rw [copySkip, if_pos h0, h0]
    exact ⟨0, [], rfl, rfl, by simp, le_rfl⟩
  | cons x m ih =>
    rw [flatten_cons, length_append] at h
    rw [copySkip]
    by_cases hx : off = 0 ∨ off < x.length
    · rw [if_pos hx]
      refine ⟨off, x :: m, rfl, rfl, fun y hy => ?_, ?_⟩
      · obtain rfl : x = y := Option.some.inj hy
        omega
      · rw [flatten_cons, length_append]
        exact h
    · rw [if_neg hx]
      obtain ⟨off', m', heq, hdrop, hhead, hle⟩ := ih
        (by omega : off - x.length ≤ m.flatten.length)
      refine ⟨off', m', heq, ?_, hhead, hle⟩
      rw [hdrop, flatten_cons, drop_append,
        drop_of_length_le (by omega : x.length ≤ off), nil_append]

theorem copyTake_spec {m : List (List UInt8)} {off len : ℕ} (hoff : ∀ x ∈ m.head?, off ≤ x.length)
    (h : off + len ≤ m.flatten.length) :
    ∃ n, copyTake off len m = some n ∧ n.flatten = (m.flatten.drop off).take len := by
  induction m generalizing off len with
  | nil =>
    have h0 : off + len ≤ 0 := h
    have hlen : len = 0 := by omega
    rw [copyTake, if_pos hlen, hlen]
    exact ⟨[], rfl, by simp⟩
  | cons x m ih =>
    rw [flatten_cons, length_append] at h
    have hx := hoff x rfl
    rw [copyTake]
    by_cases h0 : len = 0
    · rw [if_pos h0, h0]
      exact ⟨[], rfl, by simp⟩
    rw [if_neg h0]
    obtain ⟨n, hn, hflat⟩ := ih (fun y _ => Nat.zero_le y.length)
      (by omega : 0 + (len - min len (x.length - off)) ≤ m.flatten.length)
    dsimp only
    rw [hn]
    refine ⟨_, rfl, ?_⟩
    rw [flatten_cons, hflat, drop_zero, flatten_cons,
      drop_append_of_le_length hx, take_append, length_drop]
    congr 1
    · by_cases hle : len ≤ x.length - off
      · rw [Nat.min_eq_left hle]
      · rw [Nat.min_eq_right (by omega), take_of_length_le (by rw [length_drop]),
          take_of_length_le (by rw [length_drop]; omega)]
    · rw [show len - min len (x.length - off) = len - (x.length - off) from by omega]

theorem flatten_mCopy {m : List (List UInt8)} {off len : ℕ} (h : off + len ≤ m.flatten.length) :
    ∃ n, mCopy m off len = some n ∧ n.flatten = (m.flatten.drop off).take len := by
  obtain ⟨off', m', hskip, hdrop, hhead, hle⟩ :=
    copySkip_spec (by omega : off ≤ m.flatten.length)
  have hlen := congrArg length hdrop
  rw [length_drop, length_drop] at hlen
  rw [mCopy, hskip, ← hdrop]
  exact copyTake_spec hhead (by omega)

theorem flatten_trimHead (m : List (List UInt8)) (len : ℕ) :
    (trimHead len m).flatten = m.flatten.drop len := by
  induction m generalizing len with
  | nil => simp [trimHead]
  | cons x m ih =>
    rw [trimHead, flatten_cons, drop_append]
    by_cases hx : x.length ≤ len
    · rw [if_pos hx, flatten_cons, ih, drop_of_length_le hx]
    · rw [if_neg hx, flatten_cons, Nat.sub_eq_zero_of_le (by omega), drop_zero]

theorem flatten_truncate (m : List (List UInt8)) (count : ℕ) :
    (truncate count m).flatten = m.flatten.take count := by
  induction m generalizing count with
  | nil => simp [truncate]
  | cons x m ih =>
    rw [truncate, flatten_cons, take_append]
    by_cases hx : count ≤ x.length
    · rw [if_pos hx, flatten_cons, Nat.sub_eq_zero_of_le hx, take_zero,
        flatten_eq_nil_iff.mpr]
      simp
    · rw [if_neg hx, flatten_cons, ih, take_of_length_le (by omega : x.length ≤ count)]

theorem flatten_mAdj (m : List (List UInt8)) (reqLen : ℤ) :
    (mAdj m reqLen).flatten =
      if 0 ≤ reqLen then m.flatten.drop reqLen.toNat
      else m.flatten.take (m.flatten.length - (-reqLen).toNat) := by
  rw [mAdj]
  by_cases h : 0 ≤ reqLen
  · rw [if_pos h, if_pos h, flatten_trimHead]
  rw [if_neg h, if_neg h]
  obtain ⟨len, hlen⟩ : ∃ len, (-reqLen).toNat = len := ⟨_, rfl⟩
  rw [hlen]
  rcases eq_nil_or_concat m with rfl | ⟨init, x, rfl⟩
  · simp
  rw [concat_eq_append, getLast?_concat]
  dsimp only
  by_cases hx : len ≤ x.length
  · have hinit : init.flatten.length ≤ init.flatten.length + x.length - len := by omega
    rw [if_pos hx, dropLast_concat, flatten_concat, flatten_concat,
      length_append, take_append, take_of_length_le hinit,
      show init.flatten.length + x.length - len - init.flatten.length = x.length - len from
        by omega]
  · rw [if_neg hx, flatten_truncate]

/-! ## Fragments -/

/-- A packet in an mbuf chain: the fields of its header that fragmentation looks at, and
`m_pkthdr.len`.
Source: ip.h struct ip -/
structure Dgram where
  hl : ℕ
  off : BitVec 16
  len : BitVec 16
  pkthdrLen : ℕ
  m : List (List UInt8)
deriving DecidableEq

namespace Dgram

/-- The length of the header. Source: ip_output -/
def hlen (d : Dgram) : ℕ := d.hl * 4

/-- The options. Source: ip_optcopy -/
def opts (d : Dgram) : List UInt8 := (d.m.flatten.take d.hlen).drop 20

/-- What is behind the header. Source: ip.h struct ip -/
def payload (d : Dgram) : List UInt8 := d.m.flatten.drop d.hlen

/-- The packet as `ipintr` gets it at the other end.
Source: ipintr -/
def toPacket (d : Dgram) : Packet := ⟨d.hlen, d.len, d.off, d.payload⟩

end Dgram

/-- `ip_off` of a later fragment, which begins `off` bytes into the packet; `last` when it is the
last one.
Source: ip_output -/
def fragOff (d : Dgram) (off : ℕ) (last : Bool) : BitVec 16 :=
  let ipOff := BitVec.ofNat 16 ((off - d.hlen) / 8) + (d.off &&& ~~~ipMf)
  let ipOff := if d.off &&& ipMf ≠ 0 then ipOff ||| ipMf else ipOff
  if last then ipOff else ipOff ||| ipMf

/-- A later fragment: make new header and copy data of each part.
Source: ip_output -/
def makeFrag (after : UInt8) (d : Dgram) (off len : ℕ) (last : Bool) : Except Stop Dgram :=
  match (if 20 < d.hlen then ipOptcopy after d.opts else some []) with
  | none => .error .loops
  | some dp =>
    match mCopy d.m off len with
    | none => .error .panic
    | some next =>
      let mhlen := dp.length + 20
      .ok ⟨if 20 < d.hlen then mhlen / 4 else d.hl, fragOff d off last,
        BitVec.ofNat 16 (len + mhlen), mhlen + len, (d.m.flatten.take 20 ++ dp) :: next⟩

/-- Loop through length of segment after first fragment. The first argument bounds the iterations.
Source: ip_output -/
def fragLoop (after : UInt8) (d : Dgram) (len : ℕ) : ℕ → ℕ → Except Stop (List Dgram)
  | 0, _ => .error .loops
  | n + 1, off =>
    if off < d.len.toNat then
      let last := d.len.toNat ≤ off + len
      let len' := if last then d.len.toNat - off else len
      match makeFrag after d off len' last, fragLoop after d len n (off + len') with
      | .ok p, .ok ps => .ok (p :: ps)
      | .error e, _ => .error e
      | _, .error e => .error e
    else .ok []

/-- `ip_output` from `sendit` on, for an interface with `if_mtu` the short `mtu`: the packets it
hands to `if_output`.
Source: ip_output -/
def sendit (after : UInt8) (mtu : BitVec 16) (d : Dgram) : Except Stop (List Dgram) :=
  if (d.len.toNat : ℤ) ≤ mtu.toInt then .ok [d]
  else if d.off &&& ipDf ≠ 0 then .error .emsgsize
  else
    -- & ~7 rounds down, negative numbers too
    let len := (mtu.toInt - d.hlen) / 8 * 8
    if len < 8 then .error .emsgsize
    else
      let firstlen := len.toNat
      match fragLoop after d firstlen d.len.toNat (d.hlen + firstlen) with
      | .error e => .error e
      | .ok ps =>
        -- trimming what's been copied out and updating header
        .ok (⟨d.hl, d.off ||| ipMf, BitVec.ofNat 16 (d.hlen + firstlen), d.hlen + firstlen,
          mAdj d.m (d.hlen + firstlen - d.len.toNat)⟩ :: ps)

end Bsd386.Net.Ip
