import Bsd386.Net.Bpf.Filter
import Mathlib.Algebra.Order.Group.Nat

/-!
# The two ways to hand a packet to the filter

`bpf_tap` passes a flat buffer of `pktlen` bytes, `bpf_mtap` an mbuf chain with `buflen = 0`.
The filter should not see the difference. It does, in its slow path:

* a word or half-word that straddles two mbufs is read at `cp[k]` with `cp` already at offset
  `k`, so it is right only when it starts at offset 0 of its mbuf, and a word over three mbufs is
  refused;
* `BPF_LD|BPF_H|BPF_ABS` past the end loads 0 and goes on, where the flat path returns 0;
* `BPF_LD|BPF_B|BPF_IND` sign-extends the byte;
* a negative index passes the chain walk, where the flat path compares it unsigned.

`LoadsAlike` says that the load at a state meets none of these, and `bpfFilter_tap_eq_mtap` that
a run whose states all satisfy it is the same on both sides, step for step.
-/

namespace Bsd386.Net.Bpf

open Lib.Machine List

/-! ## The bytes of a chain -/

def Mbuf.contents (m : Mbuf) : List Byte := (List.range m.mLen).map fun i : ℕ => m.data i

def chainBytes (chain : List Mbuf) : List Byte := chain.flatMap Mbuf.contents

@[simp] theorem Mbuf.length_contents (m : Mbuf) : m.contents.length = m.mLen := by
  simp [Mbuf.contents]

theorem Mbuf.getElem?_contents {m : Mbuf} {i : ℕ} (hi : i < m.mLen) :
    m.contents[i]? = some (m.data i) := by
  simp [Mbuf.contents, hi]

theorem chainBytes_cons (m : Mbuf) (ms : List Mbuf) :
    chainBytes (m :: ms) = m.contents ++ chainBytes ms := by
  simp [chainBytes]

theorem chainBytes_append (ms ms' : List Mbuf) :
    chainBytes (ms ++ ms') = chainBytes ms ++ chainBytes ms' := by
  simp [chainBytes]

theorem mindex_eq_some {chain : List Mbuf} {k : ℤ} (hk : 0 ≤ k) {m : Mbuf} {rest : List Mbuf}
    {j : ℤ} (h : mindex chain k = some (m, rest, j)) :
    ∃ before, chain = before ++ m :: rest ∧ k = (chainBytes before).length + j ∧
      0 ≤ j ∧ j < m.mLen := by
  induction chain generalizing k with
  | nil => simp [mindex] at h
  | cons a as ih =>
    unfold mindex at h
    split_ifs at h with hlen
    · obtain ⟨before, hchain, hsum, hj⟩ := ih (by omega) h
      refine ⟨a :: before, by rw [hchain, cons_append], ?_, hj⟩
      rw [chainBytes_cons, length_append, a.length_contents]
      omega
    · simp only [Option.some.injEq, Prod.mk.injEq] at h
      obtain ⟨rfl, rfl, rfl⟩ := h
      exact ⟨[], rfl, by simp [chainBytes], hk, by omega⟩

theorem mindex_eq_none_iff {chain : List Mbuf} {k : ℤ} (hk : 0 ≤ k) :
    mindex chain k = none ↔ ((chainBytes chain).length : ℤ) ≤ k := by
  induction chain generalizing k with
  | nil => simpa [mindex, chainBytes] using hk
  | cons a as ih =>
    unfold mindex
    rw [chainBytes_cons, length_append, a.length_contents]
    split_ifs with hlen
    · rw [ih (by omega)]
      omega
    · simp only [false_iff, not_le]
      omega

/-- A flat buffer that holds `P`. -/
def Holds (q : Ptr) (P : List Byte) : Prop := ∀ (i : ℕ) b, P[i]? = some b → q i = b

section bytes

variable {P : List Byte} {q : Ptr} {before rest : List Mbuf} {m m0 : Mbuf}

theorem Holds.eq_data (hq : Holds q P) (hP : chainBytes (before ++ m :: rest) = P) {i j : ℤ}
    (hi : i = (chainBytes before).length + j) (hj0 : 0 ≤ j) (hj : j < m.mLen) :
    q i = m.data j := by
  obtain ⟨j, rfl⟩ := Int.eq_ofNat_of_zero_le hj0
  have hlt : j < m.mLen := by omega
  have hget : P[(chainBytes before).length + j]? = some (m.data j) := by
    rw [← hP, chainBytes_append, chainBytes_cons, getElem?_append_right (by omega),
      getElem?_append_left (by simpa using hlt), Nat.add_sub_cancel_left]
    exact Mbuf.getElem?_contents hlt
  rw [hi]
  simpa using hq _ _ hget

theorem Holds.eq_data_next (hq : Holds q P) (hP : chainBytes (before ++ m :: m0 :: rest) = P)
    {i j : ℤ} (hi : i = (chainBytes before).length + m.mLen + j) (hj0 : 0 ≤ j)
    (hj : j < m0.mLen) : q i = m0.data j := by
  have hP' : chainBytes ((before ++ [m]) ++ m0 :: rest) = P := by
    rw [← hP, append_assoc]
    rfl
  refine hq.eq_data hP' ?_ hj0 hj
  rw [chainBytes_append, length_append]
  simpa [chainBytes] using hi

end bytes

/-! ## When a load is the same on both sides -/

/-- The `n` bytes at index `k` lie in one mbuf, or they start at offset 0 of one mbuf and end in
the next.
Source: m_xword, m_xhalf -/
def FitsChain (chain : List Mbuf) (k : ℤ) (n : ℕ) : Prop :=
  ∀ m rest j, mindex chain k = some (m, rest, j) →
    j + n ≤ m.mLen ∨ j = 0 ∧ ∃ m0 rest', rest = m0 :: rest' ∧ n ≤ m.mLen + m0.mLen

/-- The load of `op` at the state `s` meets none of the differences between the two paths.
Source: bpf_filter -/
def LoadAlike (P : List Byte) (chain : List Mbuf) (ins : BpfInsn) (s : State) : Opcode → Prop
  | .ldWAbs => 0 ≤ ins.k.toInt ∧
      (P.length < ins.k.toInt + 4 ∨ FitsChain chain ins.k.toInt 4)
  | .ldWInd => 0 ≤ (s.X + ins.k).toInt ∧
      (P.length < (s.X + ins.k).toInt + 4 ∨ FitsChain chain (s.X + ins.k).toInt 4)
  | .ldHAbs => 0 ≤ ins.k.toInt ∧ ins.k.toInt + 2 ≤ P.length ∧ FitsChain chain ins.k.toInt 2
  | .ldHInd => 0 ≤ (s.X + ins.k).toInt ∧
      (P.length < (s.X + ins.k).toInt + 2 ∨ FitsChain chain (s.X + ins.k).toInt 2)
  | .ldBAbs => 0 ≤ ins.k.toInt
  | .ldBInd => 0 ≤ (s.X + ins.k).toInt ∧
      ∀ b, P[(s.X + ins.k).toInt.toNat]? = some b → b.toNat < 0x80
  | .ldxMshB => 0 ≤ ins.k.toInt
  | _ => True

/-- The instruction fetched at `s` meets none of the differences between the two paths.
Source: bpf_filter -/
def LoadsAlike (f : List BpfInsn) (P : List Byte) (chain : List Mbuf) (s : State) : Prop :=
  ∀ ins op, fetch f s.pc = some ins → Opcode.ofCode ins.code = some op →
    LoadAlike P chain ins s op

/-! ## The slow path reads what the flat path reads -/

section slow

variable {P : List Byte} {q : Ptr} {chain : List Mbuf} {k : ℤ}

theorem mXword_eq_extractLong (hq : Holds q P) (hP : chainBytes chain = P) (hk : 0 ≤ k)
    (hlen : k + 4 ≤ P.length) (hfit : FitsChain chain k 4) :
    mXword chain k = some (extractLong q k) := by
  unfold mXword
  cases hm : mindex chain k with
  | none =>
    rw [mindex_eq_none_iff hk, hP] at hm
    omega
  | some x =>
    obtain ⟨m, rest, j⟩ := x
    obtain ⟨before, hchain, rfl, hj0, hj⟩ := mindex_eq_some hk hm
    rw [hchain] at hP
    simp only
    by_cases hone : 4 ≤ (m.mLen : ℤ) - j
    · rw [if_pos hone]
      have e : ∀ i, 0 ≤ i → i < 4 → q ((chainBytes before).length + j + i) = m.data (j + i) :=
        fun i h0 h4 => hq.eq_data hP (by omega) (by omega) (by omega)
      have e0 := hq.eq_data hP rfl hj0 hj
      simp only [extractLong, Int.add_zero, Int.zero_add, e0, e 1 (by omega) (by omega),
        e 2 (by omega) (by omega), e 3 (by omega) (by omega)]
    · rw [if_neg hone]
      rcases hfit m rest j hm with h | ⟨rfl, m0, rest', rfl, hsum⟩
      · omega
      -- the word starts at offset 0, where indexing `cp` by `k` again does no harm
      simp only
      rw [if_neg (by omega)]
      have h3 : m.mLen = 1 ∨ m.mLen = 2 ∨ m.mLen = 3 := by omega
      have hin : ∀ i : ℤ, 0 ≤ i → i < m.mLen → q ((chainBytes before).length + i) = m.data i :=
        fun i h0 hi => hq.eq_data hP rfl h0 hi
      have hnext : ∀ i j : ℤ, i = m.mLen + j → 0 ≤ j → j < m0.mLen →
          q ((chainBytes before).length + i) = m0.data j :=
        fun i j hi h0 hj => hq.eq_data_next hP (by omega) h0 hj
      have e0 := hin 0 (by omega) hj
      rw [Int.add_zero] at e0
      rcases h3 with h3 | h3 | h3
      · rw [if_pos (by omega)]
        simp only [extractLong, Int.add_zero, e0, hnext 1 0 (by omega) (by omega) (by omega),
          hnext 2 1 (by omega) (by omega) (by omega), hnext 3 2 (by omega) (by omega) (by omega)]
      · rw [if_neg (by omega), if_pos (by omega)]
        simp only [extractLong, Int.add_zero, Int.zero_add, e0, hin 1 (by omega) (by omega),
          hnext 2 0 (by omega) (by omega) (by omega), hnext 3 1 (by omega) (by omega) (by omega)]
      · rw [if_neg (by omega), if_neg (by omega)]
        simp only [extractLong, Int.add_zero, Int.zero_add, e0, hin 1 (by omega) (by omega),
          hin 2 (by omega) (by omega), hnext 3 0 (by omega) (by omega) (by omega)]

theorem length_of_append {before rest : List Mbuf} {m : Mbuf} (hP : chainBytes chain = P)
    (hchain : chain = before ++ m :: rest) :
    P.length = (chainBytes before).length + (m.mLen + (chainBytes rest).length) := by
  rw [← hP, hchain, chainBytes_append, chainBytes_cons]
  simp

theorem mXword_eq_none (hP : chainBytes chain = P) (hk : 0 ≤ k) (hlen : P.length < k + 4) :
    mXword chain k = none := by
  unfold mXword
  cases hm : mindex chain k with
  | none => rfl
  | some x =>
    obtain ⟨m, rest, j⟩ := x
    obtain ⟨before, hchain, rfl, hj0, hj⟩ := mindex_eq_some hk hm
    have hlen' := length_of_append hP hchain
    simp only
    rw [if_neg (by omega)]
    cases rest with
    | nil => rfl
    | cons m0 rest' =>
      rw [chainBytes_cons, length_append, m0.length_contents] at hlen'
      simp only
      rw [if_pos (by omega)]

theorem mXhalf_eq_extractShort (hq : Holds q P) (hP : chainBytes chain = P) (hk : 0 ≤ k)
    (hlen : k + 2 ≤ P.length) (hfit : FitsChain chain k 2) :
    mXhalf chain k = some (extractShort q k) := by
  unfold mXhalf
  cases hm : mindex chain k with
  | none =>
    rw [mindex_eq_none_iff hk, hP] at hm
    omega
  | some x =>
    obtain ⟨m, rest, j⟩ := x
    obtain ⟨before, hchain, rfl, hj0, hj⟩ := mindex_eq_some hk hm
    rw [hchain] at hP
    have e0 := hq.eq_data hP rfl hj0 hj
    simp only
    by_cases hone : 2 ≤ (m.mLen : ℤ) - j
    · rw [if_pos hone]
      have e1 := hq.eq_data hP (i := (chainBytes before).length + j + 1) (j := j + 1)
        (by omega) (by omega) (by omega)
      simp only [extractShort, Int.zero_add, Int.add_zero, e0, e1]
    rw [if_neg hone]
    rcases hfit m rest j hm with h | ⟨rfl, m0, rest', rfl, hsum⟩
    · omega
    have e1 := hq.eq_data_next hP (i := (chainBytes before).length + 1) (j := 0)
      (by omega) (by omega) (by omega)
    rw [Int.add_zero] at e0
    simp only [extractShort, Int.add_zero, e0, e1]

theorem mXhalf_eq_none (hP : chainBytes chain = P) (hne : ∀ m ∈ chain, 0 < m.mLen) (hk : 0 ≤ k)
    (hlen : P.length < k + 2) : mXhalf chain k = none := by
  unfold mXhalf
  cases hm : mindex chain k with
  | none => rfl
  | some x =>
    obtain ⟨m, rest, j⟩ := x
    obtain ⟨before, hchain, rfl, hj0, hj⟩ := mindex_eq_some hk hm
    have hlen' := length_of_append hP hchain
    simp only
    rw [if_neg (by omega)]
    cases rest with
    | nil => rfl
    | cons m0 rest' =>
      have h0 : 0 < m0.mLen := hne m0 (by rw [hchain]; simp)
      rw [chainBytes_cons, length_append, m0.length_contents] at hlen'
      omega

theorem mXbyte_eq (hq : Holds q P) (hP : chainBytes chain = P) (hk : 0 ≤ k)
    (hlen : k < P.length) : mXbyte chain k = some (q k) := by
  unfold mXbyte
  cases hm : mindex chain k with
  | none =>
    rw [mindex_eq_none_iff hk, hP] at hm
    omega
  | some x =>
    obtain ⟨before, hchain, rfl, hj0, hj⟩ := mindex_eq_some hk hm
    rw [hchain] at hP
    simp only [hq.eq_data hP rfl hj0 hj]

theorem mXbyte_eq_none (hP : chainBytes chain = P) (hk : 0 ≤ k) (hlen : P.length ≤ k) :
    mXbyte chain k = none := by
  have hm : mindex chain k = none := by
    rw [mindex_eq_none_iff hk, hP]
    exact hlen
  simp only [mXbyte, hm]

end slow

/-! ## The loads agree -/

theorem toInt_eq_toNat_of_nonneg {k : BitVec 32} (hk : 0 ≤ k.toInt) :
    k.toInt = k.toNat ∧ k.toNat < 2 ^ 31 := by
  rw [BitVec.toInt_eq_toNat_cond] at hk ⊢
  split_ifs at hk ⊢ <;> omega

theorem lt_add_iff {k len n : BitVec 32} (hk : 0 ≤ k.toInt) (hn : n.toNat ≤ 4) :
    len < k + n ↔ (len.toNat : ℤ) < k.toInt + n.toNat := by
  obtain ⟨hint, hlt⟩ := toInt_eq_toNat_of_nonneg hk
  rw [BitVec.lt_def, BitVec.toNat_add, hint, Nat.mod_eq_of_lt (by omega)]
  omega

theorem le_iff {k len : BitVec 32} (hk : 0 ≤ k.toInt) : len ≤ k ↔ (len.toNat : ℤ) ≤ k.toInt := by
  obtain ⟨hint, -⟩ := toInt_eq_toNat_of_nonneg hk
  rw [BitVec.le_def, hint]
  omega

section loads

variable {P : List Byte} {tap mtap : Packet} {len k : BitVec 32}

section

variable (htap : Holds tap.bytes P) (hmtap : chainBytes mtap.chain = P)
include htap hmtap

theorem ldW_agree (hlen : len.toNat = P.length) (hne : len ≠ 0) (hk : 0 ≤ k.toInt)
    (hfit : P.length < k.toInt + 4 ∨ FitsChain mtap.chain k.toInt 4) :
    ldW tap len k = ldW mtap 0 k := by
  have h0 : (0 : BitVec 32) < k + 4 := (lt_add_iff hk (by decide)).mpr (by simp; omega)
  have hlt : len < k + 4 ↔ P.length < k.toInt + 4 := by
    rw [lt_add_iff hk (by decide), hlen]
    rfl
  unfold ldW
  rw [if_pos h0, if_neg (not_not.mpr rfl)]
  by_cases hpast : P.length < k.toInt + 4
  · rw [if_pos (hlt.mpr hpast), if_pos hne, mXword_eq_none hmtap hk hpast]
  · rw [if_neg (fun h => hpast (hlt.mp h)),
      mXword_eq_extractLong htap hmtap hk (by omega) (hfit.resolve_left hpast)]

theorem ldHInd_agree (hmbuf : ∀ m ∈ mtap.chain, 0 < m.mLen) (hlen : len.toNat = P.length)
    (hne : len ≠ 0) (hk : 0 ≤ k.toInt) (hfit : P.length < k.toInt + 2 ∨ FitsChain mtap.chain k.toInt 2) :
    ldHInd tap len k = ldHInd mtap 0 k := by
  have h0 : (0 : BitVec 32) < k + 2 := (lt_add_iff hk (by decide)).mpr (by simp; omega)
  have hlt : len < k + 2 ↔ P.length < k.toInt + 2 := by
    rw [lt_add_iff hk (by decide), hlen]
    rfl
  unfold ldHInd
  rw [if_pos h0, if_neg (not_not.mpr rfl)]
  by_cases hpast : P.length < k.toInt + 2
  · rw [if_pos (hlt.mpr hpast), if_pos hne, mXhalf_eq_none hmtap hmbuf hk hpast]
    rfl
  · rw [if_neg (fun h => hpast (hlt.mp h)),
      mXhalf_eq_extractShort htap hmtap hk (by omega) (hfit.resolve_left hpast)]
    rfl

theorem ldHAbs_agree (hlen : len.toNat = P.length) (hk : 0 ≤ k.toInt) (hin : k.toInt + 2 ≤ P.length)
    (hfit : FitsChain mtap.chain k.toInt 2) : ldHAbs tap len k = ldHAbs mtap 0 k := by
  have h0 : (0 : BitVec 32) < k + 2 := (lt_add_iff hk (by decide)).mpr (by simp; omega)
  have hnlt : ¬ len < k + 2 := by
    rw [lt_add_iff hk (by decide), hlen]
    simp only [BitVec.ofNat_eq_ofNat, BitVec.reduceToNat]
    omega
  unfold ldHAbs
  rw [if_pos h0, if_neg (not_not.mpr rfl), if_neg hnlt,
    mXhalf_eq_extractShort htap hmtap hk hin hfit]
  rfl

theorem ldByte_agree {g c : Byte → BitVec 32} (hlen : len.toNat = P.length) (hne : len ≠ 0)
    (hk : 0 ≤ k.toInt) (hg : k.toInt < P.length → g (tap.bytes k.toInt) = c (tap.bytes k.toInt)) :
    (if len ≤ k then if len ≠ 0 then none else (mXbyte tap.chain k.toInt).map c
      else some (g (tap.bytes k.toInt))) =
    (if (0 : BitVec 32) ≤ k then
      if (0 : BitVec 32) ≠ 0 then none else (mXbyte mtap.chain k.toInt).map c
      else some (g (mtap.bytes k.toInt))) := by
  have h0 : (0 : BitVec 32) ≤ k := (le_iff hk).mpr (by simpa using hk)
  have hle : len ≤ k ↔ (P.length : ℤ) ≤ k.toInt := by rw [le_iff hk, hlen]
  rw [if_pos h0, if_neg (not_not.mpr rfl)]
  by_cases hpast : (P.length : ℤ) ≤ k.toInt
  · rw [if_pos (hle.mpr hpast), if_pos hne, mXbyte_eq_none hmtap hk hpast]
    rfl
  · rw [if_neg (fun h => hpast (hle.mp h)), mXbyte_eq htap hmtap hk (by omega), hg (by omega)]
    rfl

end

theorem zeroExtend_eq_signExtend {b : Byte} (hb : b.toNat < 0x80) :
    b.zeroExtend 32 = b.signExtend 32 := by
  symm
  apply BitVec.signExtend_eq_setWidth_of_msb_false
  rw [BitVec.msb_eq_decide]
  simpa using hb

theorem nibble_zeroExtend_eq_signExtend (b : Byte) :
    b.zeroExtend 32 &&& (0xf : BitVec 32) = b.signExtend 32 &&& (0xf : BitVec 32) := by
  revert b
  decide

end loads

/-! ## The runs agree -/

section runs

variable {P : List Byte} {tap mtap : Packet} {len : BitVec 32}

theorem exec_agree (htap : Holds tap.bytes P) (hmtap : chainBytes mtap.chain = P)
    (hmbuf : ∀ m ∈ mtap.chain, 0 < m.mLen) (hlen : len.toNat = P.length) (hne : len ≠ 0)
    {ins : BpfInsn} {s : State} {op : Opcode} (h : LoadAlike P mtap.chain ins s op) :
    exec tap len len ins s op = exec mtap len 0 ins s op := by
  have hbyte : ∀ {k : BitVec 32}, 0 ≤ k.toInt → k.toInt < P.length →
      P[k.toInt.toNat]? = some (tap.bytes k.toInt) := by
    intro k hk hlt
    have hget : P[k.toInt.toNat]? = some (P.get ⟨k.toInt.toNat, by omega⟩) := by
      simp [getElem?_eq_getElem (show k.toInt.toNat < P.length by omega)]
    have := htap _ _ hget
    rw [hget, ← this]
    congr 2
    omega
  cases op with
  | ldWAbs => exact congrArg s.setA (ldW_agree htap hmtap hlen hne h.1 h.2)
  | ldWInd => exact congrArg s.setA (ldW_agree htap hmtap hlen hne h.1 h.2)
  | ldHAbs => exact congrArg s.setA (ldHAbs_agree htap hmtap hlen h.1 h.2.1 h.2.2)
  | ldHInd => exact congrArg s.setA (ldHInd_agree htap hmtap hmbuf hlen hne h.1 h.2)
  | ldBAbs => exact congrArg s.setA (ldByte_agree htap hmtap hlen hne h fun _ => rfl)
  | ldBInd =>
    refine congrArg s.setA (ldByte_agree htap hmtap hlen hne h.1 fun hlt => ?_)
    exact zeroExtend_eq_signExtend (h.2 _ (hbyte h.1 hlt))
  | ldxMshB =>
    refine congrArg s.setX (ldByte_agree (g := fun b => (b.zeroExtend 32 &&& (0xf : BitVec 32)) <<< 2)
      (c := fun b => (b.signExtend 32 &&& (0xf : BitVec 32)) <<< 2) htap hmtap hlen hne h fun _ => ?_)
    exact congrArg (fun v : BitVec 32 => v <<< 2) (nibble_zeroExtend_eq_signExtend _)
  | alu aop src => cases aop <;> rfl
  | _ => rfl

/-- **The flat and the mbuf path agree.** For any program, a packet `P` of `len` bytes in a flat
buffer, and any cut of `P` into a chain of non-empty mbufs: if every state the flat run reaches is
free of the slow path's differences, the filter does the same on both, whatever number of
instructions it is run for. Kind: P. -/
theorem bpfFilter_tap_eq_mtap (f : List BpfInsn) (P : List Byte) (hpos : 0 < P.length)
    (hlt : P.length < 2 ^ 32) (tap mtap : Packet) (htap : Holds tap.bytes P)
    (hmtap : chainBytes mtap.chain = P) (hmbuf : ∀ m ∈ mtap.chain, 0 < m.mLen) (s₀ : State)
    (hcond : ∀ n t, Steps (step f tap (.ofNat 32 P.length) (.ofNat 32 P.length)) n s₀ t →
      LoadsAlike f P mtap.chain t) (fuel : ℕ) :
    bpfFilter fuel (some f) tap (.ofNat 32 P.length) (.ofNat 32 P.length) s₀ =
      bpfFilter fuel (some f) mtap (.ofNat 32 P.length) 0 s₀ := by
  have hlen : (BitVec.ofNat 32 P.length).toNat = P.length := by
    rw [BitVec.toNat_ofNat, Nat.mod_eq_of_lt hlt]
  have hne : BitVec.ofNat 32 P.length ≠ 0 := by
    intro h
    rw [h] at hlen
    simp only [BitVec.ofNat_eq_ofNat, BitVec.toNat_ofNat] at hlen
    omega
  refine run_eq_of_step_eq fuel s₀ ?_
  intro n t ht
  unfold step
  cases hins : fetch f t.pc with
  | none => rfl
  | some ins =>
    cases hop : Opcode.ofCode ins.code with
    | none => simp only [hop]
    | some op =>
      simp only [hop]
      exact exec_agree htap hmtap hmbuf hlen hne (hcond n t ht ins op hins hop)

/-- Load the first word, return it. -/
def returnWord : List BpfInsn := [⟨Opcode.ldWAbs.code, 0, 0, 0⟩, ⟨Opcode.retA.code, 0, 0, 0⟩]

/-- The four bytes `1, 2, 3, 4`, in two mbufs of two bytes each. -/
def twoByTwo : List Mbuf :=
  [⟨2, fun i => if i = 0 then 1 else 2⟩, ⟨2, fun i => if i = 0 then 3 else 4⟩]

/-- A word over two mbufs, started at offset 0, is the same on both paths. -/
theorem bpfFilter_returnWord :
    bpfFilter 2 (some returnWord) ⟨fun i => .ofInt 8 (i + 1), []⟩ 4 4 (.start 0 0 fun _ => 0) =
      bpfFilter 2 (some returnWord) ⟨fun _ => 0, twoByTwo⟩ 4 0 (.start 0 0 fun _ => 0) := by
  refine bpfFilter_tap_eq_mtap returnWord [1, 2, 3, 4] (by decide) (by decide) _
    ⟨fun _ => 0, twoByTwo⟩ ?_ rfl (by decide) _ ?_ 2
  · intro i b hb
    obtain ⟨hi, rfl⟩ := List.getElem?_eq_some_iff.mp hb
    match i, hi with
    | 0, _ | 1, _ | 2, _ | 3, _ => rfl
  · intro n t ht
    -- the run is at the load, in its first state, or at the return
    have hpc : t = .start 0 0 (fun _ => 0) ∨ t.pc = 1 := by
      refine ht.invariant (I := fun t : State => t = .start 0 0 (fun _ => 0) ∨ t.pc = 1)
        (.inl rfl) ?_
      rintro m t u - (rfl | h1) hu
      · cases hu
        exact .inr rfl
      · unfold step at hu
        rw [h1] at hu
        cases hu
    rcases hpc with rfl | h1
    · intro ins op hins hop
      cases hins
      cases hop
      refine ⟨by decide, .inr ?_⟩
      intro m rest j hm
      cases hm
      exact .inr ⟨rfl, _, _, rfl, by decide⟩
    · intro ins op hins hop
      rw [h1] at hins
      cases hins
      cases hop
      trivial

/-- A half-word load, then the return of 1. -/
def halfThenAccept : List BpfInsn :=
  [⟨Opcode.ldHAbs.code, 0, 0, 0⟩, ⟨Opcode.retK.code, 0, 0, 1⟩]

/-- The two paths differ on an accepted program: a half-word load past the end of a one-byte
packet makes the flat path return 0 and the mbuf path go on to return 1.
Source: bpf_filter Kind: C -/
theorem not_bpfFilter_tap_eq_mtap_halfThenAccept :
    ¬ ∀ (f : List BpfInsn) (P : List Byte), 0 < f.length → f.length ≤ bpfMaxinsns →
      bpfValidate f = true → 0 < P.length → P.length < 2 ^ 32 →
      ∀ tap mtap : Packet, Holds tap.bytes P → chainBytes mtap.chain = P →
        (∀ m ∈ mtap.chain, 0 < m.mLen) → ∀ (s₀ : State), s₀.pc = 0 → ∀ fuel : ℕ,
        bpfFilter fuel (some f) tap (.ofNat 32 P.length) (.ofNat 32 P.length) s₀ =
          bpfFilter fuel (some f) mtap (.ofNat 32 P.length) 0 s₀ := by
  intro h
  have hflat : Holds (fun _ => 7) [(7 : Byte)] := by
    intro i b hb
    obtain ⟨hi, rfl⟩ := List.getElem?_eq_some_iff.mp hb
    match i, hi with
    | 0, _ => rfl
  have heq := h halfThenAccept [7] (by decide) (by decide) (by decide) (by decide) (by decide)
    ⟨fun _ => 7, []⟩ ⟨fun _ => 0, [⟨1, fun _ => 7⟩]⟩ hflat rfl (by decide)
    (.start 0 0 fun _ => 0) rfl 2
  have htap : bpfFilter 2 (some halfThenAccept) ⟨fun _ => 7, []⟩ 1 1 (.start 0 0 fun _ => 0) =
      some (.ok 0) := rfl
  have hmtap : bpfFilter 2 (some halfThenAccept) ⟨fun _ => 0, [⟨1, fun _ => 7⟩]⟩ 1 0
      (.start 0 0 fun _ => 0) = some (.ok 1) := rfl
  have : (some (.ok 0) : Option (Except Fault (BitVec 32))) = some (.ok 1) :=
    htap.symm.trans (heq.trans hmtap)
  cases this

end runs

end Bsd386.Net.Bpf
