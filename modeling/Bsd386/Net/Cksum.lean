import Bsd386.Lib.OnesComplement

/-!
# The Internet checksum

`in_cksum_c` adds the 16-bit words of an mbuf chain into a 32-bit sum. A word that spans two mbufs
is completed when the second comes along: `mlen` is left at `-1` and its first byte in `c0`. An
mbuf that starts at an odd address is added one byte off, with the sum shifted by a byte before
and after (`align`, `tail`). The carries are added back in (`reduce`) only now and then.

`Inv P s` is what holds of the sum between two mbufs, after the bytes `P`: up to the end-around
carry it is the sum of the bytes of `P` at their places, less the byte that waits. Its bound says
that the words still to come cannot carry out of 32 bits. One mbuf keeps it (`Inv.mbuf`), in the
stages of the source: `Inv.join`, `unrolled_eq`, and the two ends of `body`.

Source: `sys/i386/i386/in_cksum.c`.
-/

namespace Bsd386.Net.Cksum

open List Lib.Bytes

/-! ## The routine -/

/-- An mbuf: where its data is and how much.
Source: m_len, mtod -/
structure Mbuf where
  data : ℕ
  mlen : ℕ

def flat (mem : Mem) (m : List Mbuf) : List Byte := m.flatMap fun m => row mem m.data m.mlen

/-- The variables of the routine; of `s_util` only `c[0]` outlives a statement.
Source: in_cksum_c -/
structure St where
  sum : BitVec 32
  mlen : ℤ
  len : ℤ
  c0 : Byte
  byteSwapped : Bool
  w : ℕ

/-- Source: ADDCARRY -/
def addcarry (x : BitVec 32) : BitVec 32 := if (65535 : ℤ) < x.toInt then x - 65535#32 else x

/-- The two halves of the sum added. Source: REDUCE -/
def reduce (sum : BitVec 32) : BitVec 32 := addcarry ((sum &&& 0xffff#32) + (sum >>> 16))

/-- The word made of two saved bytes. Source: s_util -/
def sUtil (c0 c1 : Byte) : BitVec 32 := BitVec.ofNat 32 (c0.toNat + 256 * c1.toNat)

/-- `sum += w[0]; sum += w[1]; …`, `k` words. Source: in_cksum_c -/
def addWords (mem : Mem) (w k : ℕ) (sum : BitVec 32) : BitVec 32 :=
  (List.range k).foldl (fun sum i => sum + BitVec.ofNat 32 (hostWord mem (w + 2 * i))) sum

/-- `while ((mlen -= 2 * k) >= 0)`, `k` words a turn; `none` is out of fuel.
Source: in_cksum_c -/
def unrolled (mem : Mem) (k : ℕ) : ℕ → St → Option St
  | 0, _ => none
  | fuel + 1, s =>
    let mlen := s.mlen - 2 * k
    if 0 ≤ mlen then
      unrolled mem k fuel
        { s with mlen := mlen, sum := addWords mem s.w k s.sum, w := s.w + 2 * k }
    else some { s with mlen := mlen }

/-- Such a loop and the `mlen += 2 * k` after it. Source: in_cksum_c -/
def chunks (mem : Mem) (k fuel : ℕ) (s : St) : Option St :=
  (unrolled mem k fuel s).map fun s => { s with mlen := s.mlen + 2 * k }

/-- The first statements for an mbuf: a byte that waits is completed.
Source: in_cksum_c -/
def join (mem : Mem) (m : Mbuf) (s : St) : St :=
  if s.mlen = -1 then
    { s with sum := s.sum + sUtil s.c0 (mem m.data), w := m.data + 1, mlen := m.mlen - 1,
             len := s.len - 1 }
  else { s with w := m.data, mlen := m.mlen }

/-- No more than `len` bytes of it. Source: in_cksum_c -/
def clip (s : St) : St :=
  let mlen := if s.len < s.mlen then s.len else s.mlen
  { s with mlen := mlen, len := s.len - mlen }

/-- "Force to even boundary". Source: in_cksum_c -/
def align (mem : Mem) (s : St) : St :=
  if s.w % 2 = 1 ∧ 0 < s.mlen then
    { s with sum := reduce s.sum <<< 8, c0 := mem s.w, w := s.w + 1, mlen := s.mlen - 1,
             byteSwapped := true }
  else s

/-- What follows the last loop. Source: in_cksum_c -/
def tail (mem : Mem) (s : St) : St :=
  if s.byteSwapped then
    let s := { s with sum := reduce s.sum <<< 8, byteSwapped := false }
    if s.mlen = -1 then { s with sum := s.sum + sUtil s.c0 (mem s.w), mlen := 0 }
    else { s with mlen := -1 }
  else if s.mlen = -1 then { s with c0 := mem s.w }
  else s

/-- The loops over the aligned words. Source: in_cksum_c -/
def aligned (mem : Mem) (s : St) : Option St := do
  let fuel := s.mlen.toNat + 1
  let s ← chunks mem 16 fuel s
  let s ← chunks mem 4 fuel s
  if s.mlen = 0 ∧ s.byteSwapped = false then some s
  else
    let s ← unrolled mem 1 fuel { s with sum := reduce s.sum }
    some (tail mem s)

/-- One mbuf. Source: in_cksum_c -/
def body (mem : Mem) (m : Mbuf) (s : St) : Option St :=
  if m.mlen = 0 then some s else aligned mem (align mem (clip (join mem m s)))

/-- `for (;m && len; m = m->m_next)`. Source: in_cksum_c -/
def cksumLoop (mem : Mem) : List Mbuf → St → Option St
  | [], s => some s
  | m :: ms, s => if s.len = 0 then some s else body mem m s >>= cksumLoop mem ms

/-- The value returned and whether "cksum: out of data" is printed.
Source: in_cksum_c -/
structure Out where
  value : BitVec 32
  outOfData : Bool
deriving DecidableEq

/-- The statements after the loop. Source: in_cksum_c -/
def finish (s : St) : Out :=
  let sum := if s.mlen = -1 then s.sum + sUtil s.c0 0 else s.sum
  { value := ~~~(reduce sum) &&& 0xffff#32, outOfData := s.len ≠ 0 }

/-- The variables at the start; `c0` is not read before it is set.
Source: in_cksum_c -/
def start (len : ℤ) (c0 : Byte) : St :=
  { sum := 0, mlen := 0, len := len, c0 := c0, byteSwapped := false, w := 0 }

/-- The checksum of the first `len` bytes of a chain; `c0` is what `s_util` held on the stack.
Source: in_cksum_c -/
def inCksumC (mem : Mem) (m : List Mbuf) (len : ℤ) (c0 : Byte) : Option Out :=
  (cksumLoop mem m (start len c0)).map finish

/-- The one's complement checksum of a flat byte string: the complement of the one's complement sum
of its words. -/
def flatCksum (l : List Byte) : BitVec 32 := BitVec.ofNat 32 (65535 - onesSum (words l))

/-! ## Sums in 32 bits -/

theorem reduce_spec (sum : BitVec 32) :
    (reduce sum).toNat ≤ 65535 ∧ Same (reduce sum).toNat sum.toNat := by
  obtain ⟨x, hx⟩ : ∃ x, x = (sum &&& 0xffff#32) + (sum >>> 16) := ⟨_, rfl⟩
  have hval : x.toNat = sum.toNat % 65536 + sum.toNat / 65536 := by
    have hand : sum.toNat &&& 65535 = sum.toNat % 65536 := Nat.and_two_pow_sub_one_eq_mod _ 16
    rw [hx, BitVec.toNat_add, BitVec.toNat_and, BitVec.toNat_ushiftRight, Nat.shiftRight_eq_div_pow]
    change ((sum.toNat &&& 65535) + sum.toNat / 65536) % 4294967296 = _
    rw [hand]
    omega
  have hint : x.toInt = x.toNat := BitVec.toInt_eq_toNat_of_lt (by omega)
  rw [reduce, ← hx, addcarry, hint]
  split
  · have hsub : (x - 65535#32).toNat = x.toNat - 65535 := by
      rw [BitVec.toNat_sub_of_le (BitVec.le_def.mpr (show 65535 % 4294967296 ≤ _ by omega))]
      rfl
    rw [hsub]
    exact ⟨by omega, by constructor <;> omega⟩
  · exact ⟨by omega, by constructor <;> omega⟩

theorem toNat_shl {sum : BitVec 32} (hsum : sum.toNat ≤ 65535) :
    (sum <<< 8).toNat = 256 * sum.toNat := by
  rw [BitVec.toNat_shiftLeft, Nat.shiftLeft_eq]
  omega

theorem toNat_add_ofNat {sum : BitVec 32} {n : ℕ} (h : sum.toNat + n < 4294967296) :
    (sum + BitVec.ofNat 32 n).toNat = sum.toNat + n := by
  rw [BitVec.toNat_add, BitVec.toNat_ofNat]
  omega

theorem addWords_eq (mem : Mem) (w k : ℕ) (sum : BitVec 32) :
    addWords mem w k sum = sum + BitVec.ofNat 32 (byteSum false (row mem w (2 * k))) := by
  induction k with
  | zero => exact (BitVec.add_zero sum).symm
  | succ k ih =>
    rw [addWords] at ih ⊢
    rw [range_succ, foldl_append, ih, byteSum_row_succ, BitVec.ofNat_add,
      ← BitVec.add_assoc]
    rfl

/-- The next `i` words added. -/
def St.advance (mem : Mem) (i : ℕ) (s : St) : St :=
  { s with sum := s.sum + BitVec.ofNat 32 (byteSum false (row mem s.w (2 * i)))
           w := s.w + 2 * i
           mlen := s.mlen - 2 * i }

theorem St.advance_advance (mem : Mem) (i j : ℕ) (s : St) :
    (s.advance mem i).advance mem j = s.advance mem (i + j) := by
  have hrow : byteSum false (row mem s.w (2 * (i + j))) =
      byteSum false (row mem s.w (2 * i)) + byteSum false (row mem (s.w + 2 * i) (2 * j)) := by
    rw [Nat.mul_add, row_add, byteSum_append, oddLength_row_two_mul]
    rfl
  simp only [advance, hrow, BitVec.ofNat_add, BitVec.add_assoc]
  congr 1 <;> omega

theorem unrolled_eq (mem : Mem) {k : ℕ} (hk : 0 < k) :
    ∀ (fuel n : ℕ) (s : St), s.mlen = n → n < fuel →
      ∃ i, 2 * i ≤ n ∧ n < 2 * i + 2 * k ∧
        unrolled mem k fuel s =
          some { s.advance mem i with mlen := (s.advance mem i).mlen - 2 * k } := by
  intro fuel
  induction fuel with
  | zero => exact fun n s _ h => absurd h (Nat.not_lt_zero n)
  | succ fuel ih =>
    intro n s hn hfuel
    by_cases hle : 2 * k ≤ n
    · have hturn : { s with mlen := s.mlen - 2 * k, sum := addWords mem s.w k s.sum
                            w := s.w + 2 * k } = s.advance mem k := by
        rw [addWords_eq]
        rfl
      obtain ⟨i, hi, hi', hrun⟩ := ih (n - 2 * k) (s.advance mem k)
        (show s.mlen - 2 * k = _ by omega) (by omega)
      refine ⟨k + i, by omega, by omega, ?_⟩
      rw [unrolled, if_pos (by omega), hturn, hrun, St.advance_advance]
    · refine ⟨0, by omega, by omega, ?_⟩
      have hturn : s.advance mem 0 = s := by
        have hsum : s.sum + BitVec.ofNat 32 (byteSum false (row mem s.w (2 * 0))) = s.sum :=
          BitVec.add_zero s.sum
        rw [St.advance, hsum]
        congr 1
        exact Int.sub_zero _
      rw [unrolled, if_neg (by omega), hturn]

theorem chunks_eq (mem : Mem) {k : ℕ} (hk : 0 < k) (fuel : ℕ) {n : ℕ} {s : St} (hn : s.mlen = n)
    (hfuel : n < fuel) :
    ∃ i, 2 * i ≤ n ∧ n < 2 * i + 2 * k ∧ chunks mem k fuel s = some (s.advance mem i) := by
  obtain ⟨i, hi, hi', hrun⟩ := unrolled_eq mem hk fuel n s hn hfuel
  refine ⟨i, hi, hi', ?_⟩
  rw [chunks, hrun, Option.map_some]
  congr 2
  exact Int.sub_add_cancel _ _

/-! ## One mbuf -/

/-- What holds between two mbufs, after the bytes `P`: the sum of the bytes at their places, less the
one that waits, and room in 32 bits for the bytes to come. -/
structure Inv (P : List Byte) (s : St) : Prop where
  swapped : s.byteSwapped = false
  len : 0 ≤ s.len
  total : P.length + s.len ≤ 65535
  waits : s.mlen = -1 → oddLength P = true ∧
    Same (s.sum.toNat + s.c0.toNat) (byteSum false P) ∧
    s.sum.toNat + 32768 * (s.len + 2) < 4294967296
  whole : s.mlen ≠ -1 → oddLength P = false ∧ Same s.sum.toNat (byteSum false P) ∧
    s.sum.toNat + 32768 * s.len < 4294967296

/-- What holds within an mbuf once no byte waits: `n` bytes of it from `w` on are to be added. -/
structure Mid (P : List Byte) (n : ℕ) (s : St) : Prop where
  swapped : s.byteSwapped = false
  len : 0 ≤ s.len
  total : P.length + n + s.len ≤ 65535
  mlen : s.mlen = n
  even : oddLength P = false
  sum : Same s.sum.toNat (byteSum false P)
  bound : s.sum.toNat + 32768 * (n + s.len) < 4294967296

section mbuf

variable {P : List Byte} {s : St} {n : ℕ} (mem : Mem) (m : Mbuf)

theorem oddLength_append (hP : oddLength P = false) (l : List Byte) :
    oddLength (P ++ l) = oddLength l := by
  rw [oddLength, beq_eq_false_iff_ne] at hP
  rw [oddLength, oddLength, length_append, Nat.add_mod, (Nat.mod_two_ne_one.mp hP), Nat.zero_add,
    Nat.mod_mod]

theorem byteSum_append_even (hP : oddLength P = false) (l : List Byte) :
    byteSum false (P ++ l) = byteSum false P + byteSum false l := by
  rw [byteSum_append, hP, Bool.xor_false]

theorem Inv.join (h : Inv P s) (hlen : 0 < s.len) (hm : 0 < m.mlen) :
    ∃ d : ℕ, d ≤ m.mlen ∧ d ≤ s.len ∧
      (join mem m s).w = m.data + d ∧ (join mem m s).mlen = m.mlen - d ∧
      (join mem m s).len = s.len - d ∧ (join mem m s).byteSwapped = false ∧
      oddLength (P ++ row mem m.data d) = false ∧
      Same (join mem m s).sum.toNat (byteSum false (P ++ row mem m.data d)) ∧
      (join mem m s).sum.toNat + 32768 * (s.len - d) < 4294967296 := by
  by_cases hw : s.mlen = -1
  · obtain ⟨hodd, hsum, hbound⟩ := h.waits hw
    have hrow : row mem m.data 1 = [mem m.data] := rfl
    have hval : (s.sum + sUtil s.c0 (mem m.data)).toNat =
        s.sum.toNat + (s.c0.toNat + 256 * (mem m.data).toNat) := toNat_add_ofNat (by omega)
    refine ⟨1, hm, by omega, ?_⟩
    rw [Cksum.join, if_pos hw]
    refine ⟨rfl, rfl, rfl, h.swapped, ?_, ?_, ?_⟩
    · rw [oddLength, beq_iff_eq] at hodd
      rw [hrow, oddLength, length_append, beq_eq_false_iff_ne, length_singleton]
      omega
    · rw [hrow, byteSum_append, hodd]
      change Same (s.sum + sUtil s.c0 (mem m.data)).toNat
        (byteSum false P + (256 * (mem m.data).toNat + 0))
      rw [hval, ← Nat.add_assoc]
      exact hsum.add_right _
    · change ((s.sum + sUtil s.c0 (mem m.data)).toNat : ℤ) + _ < _
      rw [hval]
      omega
  · obtain ⟨heven, hsum, hbound⟩ := h.whole hw
    refine ⟨0, Nat.zero_le _, by omega, ?_⟩
    rw [Cksum.join, if_neg hw]
    have hnil : P ++ row mem m.data 0 = P := append_nil P
    rw [hnil]
    exact ⟨rfl, (Int.sub_zero _).symm, (Int.sub_zero _).symm, h.swapped, heven, hsum, by
      change (s.sum.toNat : ℤ) + _ < _
      omega⟩

theorem St.toNat_sum_advance {i : ℕ} (hbound : s.sum.toNat + 32768 * (2 * i) < 4294967296) :
    (s.advance mem i).sum.toNat = s.sum.toNat + byteSum false (row mem s.w (2 * i)) ∧
      byteSum false (row mem s.w (2 * i)) ≤ 32768 * (2 * i) := by
  have hle := byteSum_le false (row mem s.w (2 * i))
  rw [length_row, cond_false, Nat.add_zero] at hle
  exact ⟨toNat_add_ofNat (by omega), hle⟩

theorem aligned_eq (hn : s.mlen = n) :
    ∃ g, 2 * g ≤ n ∧ n < 2 * g + 8 ∧ aligned mem s =
      if (s.advance mem g).mlen = 0 ∧ s.byteSwapped = false then some (s.advance mem g)
      else (unrolled mem 1 (s.mlen.toNat + 1)
        { s.advance mem g with sum := reduce (s.advance mem g).sum }).map (tail mem) := by
  obtain ⟨i, hi, hi', hrun⟩ := chunks_eq mem (k := 16) (by omega) (s.mlen.toNat + 1) hn (by omega)
  obtain ⟨j, hj, hj', hrun'⟩ := chunks_eq mem (k := 4) (by omega) (s.mlen.toNat + 1) (n := n - 2 * i)
    (s := s.advance mem i) (show s.mlen - 2 * i = _ by omega) (by omega)
  refine ⟨i + j, by omega, by omega, ?_⟩
  rw [St.advance_advance] at hrun'
  rw [aligned, hrun, Option.bind_eq_bind, Option.bind_some, hrun', Option.map_eq_bind]
  rfl

/-- **The loops over the aligned words.** All but a last odd byte is added; where the routine does
not `continue`, few words have been added since the last `REDUCE`. -/
theorem aligned_spec (hn : s.mlen = n) (hbound : s.sum.toNat + 32768 * n < 4294967296) :
    ∃ (h : ℕ) (s' : St), 2 * h ≤ n ∧ n < 2 * h + 2 ∧
      Same s'.sum.toNat (s.sum.toNat + byteSum false (row mem s.w (2 * h))) ∧
      s'.w = s.w + 2 * h ∧ s'.c0 = s.c0 ∧ s'.byteSwapped = s.byteSwapped ∧ s'.len = s.len ∧
      ((aligned mem s = some s' ∧ s.byteSwapped = false ∧ n = 2 * h ∧ s'.mlen = 0 ∧
          s'.sum.toNat ≤ s.sum.toNat + 32768 * n) ∨
        (aligned mem s = some (tail mem s') ∧ s'.mlen = n - 2 * h - 2 ∧ s'.sum.toNat ≤ 327675)) := by
  obtain ⟨g, hg, hg', hrun⟩ := aligned_eq mem hn
  obtain ⟨hsum, hle⟩ := St.toNat_sum_advance mem (s := s) (i := g) (by omega)
  have hmlen : (s.advance mem g).mlen = n - 2 * g := by rw [← hn]; rfl
  by_cases hc : (s.advance mem g).mlen = 0 ∧ s.byteSwapped = false
  · rw [if_pos hc] at hrun
    refine ⟨g, s.advance mem g, hg, by omega, ?_, rfl, rfl, rfl, rfl,
      Or.inl ⟨hrun, hc.2, by omega, hc.1, by omega⟩⟩
    rw [hsum]
    exact Same.refl _
  rw [if_neg hc] at hrun
  obtain ⟨t, ht⟩ : ∃ t, t = { s.advance mem g with sum := reduce (s.advance mem g).sum } := ⟨_, rfl⟩
  rw [← ht] at hrun
  obtain ⟨hred, hsame⟩ := reduce_spec (s.advance mem g).sum
  have htsum : t.sum = reduce (s.advance mem g).sum := by rw [ht]
  have htw : t.w = s.w + 2 * g := by rw [ht]; rfl
  obtain ⟨i, hi, hi', hrun'⟩ := unrolled_eq mem (show 0 < 1 by omega) (s.mlen.toNat + 1) (n - 2 * g)
    t (by rw [ht]; exact hmlen.trans (by omega)) (by omega)
  rw [hrun', Option.map_some] at hrun
  rw [← htsum] at hred hsame
  obtain ⟨hsum', hle'⟩ := St.toNat_sum_advance mem (s := t) (i := i) (by omega)
  refine ⟨g + i, _, by omega, by omega, ?_, ?_, ?_, ?_, ?_, Or.inr ⟨hrun, ?_, ?_⟩⟩
  · change Same (t.advance mem i).sum.toNat _
    rw [hsum', Nat.mul_add, row_add, byteSum_append, oddLength_row_two_mul, ← Nat.add_assoc, ← hsum,
      htw]
    exact hsame.add_right _
  · change t.w + 2 * i = _
    rw [htw, Nat.mul_add, Nat.add_assoc]
  · change t.c0 = _
    rw [ht]
    rfl
  · change t.byteSwapped = _
    rw [ht]
    rfl
  · change t.len = _
    rw [ht]
    rfl
  · change t.mlen - 2 * i - 2 * (1 : ℕ) = _
    have htm : t.mlen = n - 2 * g := by rw [ht]; exact hmlen
    omega
  · change (t.advance mem i).sum.toNat ≤ _
    omega

theorem Mid.odd (h : Mid P n s) (hodd : s.w % 2 = 1 ∧ 0 < s.mlen) :
    ∃ s', Cksum.aligned mem (align mem s) = some s' ∧ Inv (P ++ row mem s.w n) s' ∧
      s'.len = s.len := by
  have hn := h.mlen
  have hlen := h.len
  have htotal := h.total
  have hlength : (P ++ row mem s.w n).length = P.length + n := by
    rw [length_append, length_row]
  obtain ⟨k, rfl⟩ : ∃ k, n = k + 1 := ⟨n - 1, by omega⟩
  obtain ⟨hred, hsame⟩ := reduce_spec s.sum
  obtain ⟨t, ht⟩ : ∃ t : St, t = { s with
    sum := reduce s.sum <<< 8, c0 := mem s.w, w := s.w + 1, mlen := s.mlen - 1, byteSwapped := true } :=
      ⟨_, rfl⟩
  have htsum : t.sum.toNat = 256 * (reduce s.sum).toNat := by rw [ht]; exact toNat_shl hred
  have htw : t.w = s.w + 1 := by rw [ht]
  have htc : t.c0 = mem s.w := by rw [ht]
  have htb : t.byteSwapped = true := by rw [ht]
  have htl : t.len = s.len := by rw [ht]
  obtain ⟨g, s', hg, hg', hs', hw', hc', hb', hl', hrun⟩ :=
    aligned_spec mem (s := t) (n := k)
      (by rw [ht]; change s.mlen - 1 = _; omega) (by omega)
  rw [align, if_pos hodd, ← ht]
  obtain ⟨-, hb, -⟩ | ⟨hrun, hmlen, -⟩ := hrun
  · rw [htb] at hb
    cases hb
  obtain ⟨hred', hsame'⟩ := reduce_spec s'.sum
  have hshl : (reduce s'.sum <<< 8).toNat = 256 * (reduce s'.sum).toNat := toNat_shl hred'
  have hkey : Same (reduce s'.sum <<< 8).toNat
      (byteSum false P + byteSum true (row mem (s.w + 1) (2 * g))) := by
    rw [hshl]
    rw [htsum, htw] at hs'
    have hrest := (hsame'.trans hs').shift
    rw [Nat.mul_add] at hrest
    refine hrest.trans (Same.add ?_ (same_shift false _))
    exact (Same.shift_shift _).trans (hsame.trans h.sum)
  have hfirst : byteSum false (P ++ row mem s.w (k + 1)) =
      byteSum false P + ((mem s.w).toNat + byteSum true (row mem (s.w + 1) k)) := by
    rw [byteSum_append_even h.even, row_succ]
    rfl
  rw [htc] at hc'
  have htail : tail mem s' = if s'.mlen = -1 then
        { s' with sum := reduce s'.sum <<< 8 + sUtil s'.c0 (mem s'.w), mlen := 0, byteSwapped := false }
      else { s' with sum := reduce s'.sum <<< 8, mlen := -1, byteSwapped := false } := by
    rw [tail, hb', htb]
    rfl
  by_cases hlast : s'.mlen = -1
  · -- the row ends with the second byte of a word, whose first is the one saved
    obtain rfl : k = 2 * g + 1 := by omega
    have hval : (reduce s'.sum <<< 8 + sUtil (mem s.w) (mem s'.w)).toNat =
        (reduce s'.sum <<< 8).toNat + ((mem s.w).toNat + 256 * (mem s'.w).toNat) :=
      toNat_add_ofNat (by omega)
    rw [htail, if_pos hlast, hc'] at hrun
    refine ⟨_, hrun, ⟨rfl, ?_, ?_, nofun, fun _ => ⟨?_, ?_, ?_⟩⟩, hl'.trans htl⟩
    · exact (hl'.trans htl) ▸ hlen
    · change ((P ++ row mem s.w (2 * g + 1 + 1)).length : ℤ) + s'.len ≤ _
      omega
    · rw [oddLength_append h.even]
      exact oddLength_row_two_mul _ _ (g + 1)
    · change Same (reduce s'.sum <<< 8 + sUtil (mem s.w) (mem s'.w)).toNat _
      have hrow : byteSum true (row mem (s.w + 1) (2 * g + 1)) =
          byteSum true (row mem (s.w + 1) (2 * g)) + 256 * (mem s'.w).toNat := by
        rw [row_add, byteSum_append, oddLength_row_two_mul, hw', htw]
        rfl
      rw [hval, hfirst, hrow, Nat.add_left_comm (mem s.w).toNat, ← Nat.add_assoc (byteSum _ _)]
      exact hkey.add_right _
    · change ((reduce s'.sum <<< 8 + sUtil (mem s.w) (mem s'.w)).toNat : ℤ) + 32768 * s'.len < _
      rw [hval, hshl]
      omega
  · -- the byte saved at the start waits
    obtain rfl : k = 2 * g := by omega
    rw [htail, if_neg hlast] at hrun
    refine ⟨_, hrun, ⟨rfl, ?_, ?_, fun _ => ⟨?_, ?_, ?_⟩, fun h => absurd rfl h⟩, hl'.trans htl⟩
    · exact (hl'.trans htl) ▸ hlen
    · change ((P ++ row mem s.w (2 * g + 1)).length : ℤ) + s'.len ≤ _
      omega
    · rw [oddLength_append h.even, oddLength, length_row]
      exact beq_iff_eq.mpr (by omega)
    · change Same ((reduce s'.sum <<< 8).toNat + s'.c0.toNat) _
      rw [hc', hfirst, Nat.add_comm (mem s.w).toNat, ← Nat.add_assoc]
      exact hkey.add_right _
    · change ((reduce s'.sum <<< 8).toNat : ℤ) + 32768 * (s'.len + 2) < _
      rw [hshl]
      omega

theorem Mid.whole (h : Mid P n s) (heven : ¬ (s.w % 2 = 1 ∧ 0 < s.mlen)) :
    ∃ s', Cksum.aligned mem (align mem s) = some s' ∧ Inv (P ++ row mem s.w n) s' ∧
      s'.len = s.len := by
  have hn := h.mlen
  have hlen := h.len
  have htotal := h.total
  have hbound := h.bound
  have hlength : (P ++ row mem s.w n).length = P.length + n := by
    rw [length_append, length_row]
  rw [align, if_neg heven]
  obtain ⟨g, s', hg, hg', hs', hw', hc', hb', hl', hrun⟩ :=
    aligned_spec mem (s := s) (n := n) hn (by omega)
  have hP := h.sum
  obtain ⟨hrun, -, hng, hmlen, hsmall⟩ | ⟨hrun, hmlen, hsmall⟩ := hrun
  · refine ⟨s', hrun, ⟨hb'.trans h.swapped, by omega, by omega, by omega, fun _ => ⟨?_, ?_, by omega⟩⟩,
      hl'⟩
    · rw [oddLength_append h.even, hng]
      exact oddLength_row_two_mul _ _ _
    · rw [byteSum_append_even h.even, hng]
      exact hs'.trans (hP.add_right _)
  · have htail : tail mem s' = if s'.mlen = -1 then { s' with c0 := mem s'.w } else s' := by
      rw [tail, hb', h.swapped]
      rfl
    by_cases hlast : s'.mlen = -1
    · rw [htail, if_pos hlast] at hrun
      obtain rfl : n = 2 * g + 1 := by omega
      refine ⟨_, hrun, ⟨hb'.trans h.swapped, ?_, ?_, fun _ => ⟨?_, ?_, ?_⟩, fun h => absurd hlast h⟩,
        hl'⟩
      · exact hl' ▸ hlen
      · change ((P ++ row mem s.w (2 * g + 1)).length : ℤ) + s'.len ≤ _
        omega
      · rw [oddLength_append h.even, oddLength, length_row]
        exact beq_iff_eq.mpr (by omega)
      · change Same (s'.sum.toNat + (mem s'.w).toNat) _
        rw [byteSum_append_even h.even, row_add, byteSum_append, oddLength_row_two_mul, ← Nat.add_assoc,
          hw']
        exact (hs'.trans (hP.add_right _)).add_right _
      · change (s'.sum.toNat : ℤ) + 32768 * (s'.len + 2) < _
        omega
    · rw [htail, if_neg hlast] at hrun
      obtain rfl : n = 2 * g := by omega
      refine ⟨_, hrun, ⟨hb'.trans h.swapped, by omega, by omega, fun h => absurd h hlast,
        fun _ => ⟨?_, ?_, by omega⟩⟩, hl'⟩
      · rw [oddLength_append h.even]
        exact oddLength_row_two_mul _ _ _
      · rw [byteSum_append_even h.even]
        exact hs'.trans (hP.add_right _)

theorem Inv.body (h : Inv P s) (hlen : 0 < s.len) :
    ∃ (s' : St) (k : ℕ), Cksum.body mem m s = some s' ∧ k ≤ m.mlen ∧ (k : ℤ) ≤ s.len ∧
      (k = m.mlen ∨ (k : ℤ) = s.len) ∧ Inv (P ++ row mem m.data k) s' ∧ s'.len = s.len - k := by
  by_cases hm : m.mlen = 0
  · refine ⟨s, 0, ?_, by omega, by omega, by omega, ?_, (Int.sub_zero _).symm⟩
    · rw [Cksum.body, if_pos hm]
    · have hnil : P ++ row mem m.data 0 = P := append_nil P
      rw [hnil]
      exact h
  obtain ⟨d, hd, hd', hw, hmlen, hl, hb, heven, hsum, hbound⟩ :=
    h.join mem m hlen (by omega)
  obtain ⟨t, ht⟩ : ∃ t, t = clip (Cksum.join mem m s) := ⟨_, rfl⟩
  have hclip : t.mlen = if s.len - d < m.mlen - d then s.len - d else m.mlen - d := by
    rw [ht, clip, hmlen, hl]
  obtain ⟨n, htm, hn, hn', hn''⟩ : ∃ n : ℕ, t.mlen = n ∧ n + d ≤ m.mlen ∧ (n + d : ℤ) ≤ s.len ∧
      (n + d = m.mlen ∨ (n + d : ℤ) = s.len) := by
    by_cases hlt : s.len - d < m.mlen - d
    · rw [if_pos hlt] at hclip
      exact ⟨(s.len - d).toNat, by omega, by omega, by omega, by omega⟩
    · rw [if_neg hlt] at hclip
      exact ⟨m.mlen - d, by omega, by omega, by omega, by omega⟩
  have htl : t.len = s.len - d - n := by
    rw [← htm, ht, clip, hl]
  have htw : t.w = m.data + d := by rw [ht]; exact hw
  have htsum : t.sum = (Cksum.join mem m s).sum := by rw [ht]; rfl
  have htotal := h.total
  have hmid : Mid (P ++ row mem m.data d) n t := by
    refine ⟨by rw [ht]; exact hb, by omega, ?_, htm, heven, htsum ▸ hsum, ?_⟩
    · rw [length_append, length_row]
      omega
    · rw [htsum]
      omega
  obtain ⟨s', hrun, hinv, hl'⟩ :
      ∃ s', Cksum.aligned mem (align mem t) = some s' ∧
        Inv (P ++ row mem m.data d ++ row mem t.w n) s' ∧ s'.len = t.len := by
    by_cases hodd : t.w % 2 = 1 ∧ 0 < t.mlen
    · exact hmid.odd mem hodd
    · exact hmid.whole mem hodd
  refine ⟨s', d + n, ?_, by omega, by omega, by omega, ?_, by omega⟩
  · rw [Cksum.body, if_neg hm, ← ht]
    exact hrun
  · rw [row_add, ← append_assoc, ← htw]
    exact hinv

end mbuf

/-! ## The chain -/

theorem cksumLoop_spec (mem : Mem) (ms : List Mbuf) : ∀ {P : List Byte} {s : St}, Inv P s →
    s.len ≤ (flat mem ms).length →
    ∃ s', cksumLoop mem ms s = some s' ∧ Inv (P ++ (flat mem ms).take s.len.toNat) s' ∧
      s'.len = 0 := by
  induction ms with
  | nil =>
    intro P s h hdata
    have hlen := h.len
    have hdata' : s.len ≤ 0 := hdata
    refine ⟨s, rfl, ?_, by omega⟩
    rw [show flat mem [] = [] from rfl, take_nil, append_nil]
    exact h
  | cons m ms ih =>
    intro P s h hdata
    have hlen := h.len
    have hflat : flat mem (m :: ms) = row mem m.data m.mlen ++ flat mem ms := rfl
    rw [hflat, length_append, length_row] at hdata
    by_cases h0 : s.len = 0
    · refine ⟨s, ?_, ?_, h0⟩
      · rw [cksumLoop, if_pos h0]
      · rw [h0, Int.toNat_zero, take_zero, append_nil]
        exact h
    obtain ⟨s1, k, hrun, hk, hk', hk'', hinv, hl⟩ := h.body mem m (by omega)
    obtain ⟨s', hrun', hinv', hl'⟩ := ih hinv (by omega)
    refine ⟨s', ?_, ?_, hl'⟩
    · rw [cksumLoop, if_neg h0, hrun, Option.bind_eq_bind, Option.bind_some, hrun']
    · have htake : (flat mem (m :: ms)).take s.len.toNat =
          row mem m.data k ++ (flat mem ms).take s1.len.toNat := by
        rw [hflat, take_append, length_row]
        rcases hk'' with rfl | hk''
        · rw [take_of_length_le (by rw [length_row]; omega)]
          congr 2
          omega
        · rw [take_row mem m.data (show s.len.toNat ≤ m.mlen by omega)]
          congr 2 <;> omega
      rw [htake, ← append_assoc]
      exact hinv'

theorem Inv.finish {P : List Byte} {s : St} (h : Inv P s) (hl : s.len = 0) :
    finish s = { value := flatCksum P, outOfData := false } := by
  obtain ⟨x, hx, hsame⟩ : ∃ x, x = (if s.mlen = -1 then s.sum + sUtil s.c0 0 else s.sum) ∧
      Same x.toNat (byteSum false P) := by
    refine ⟨_, rfl, ?_⟩
    by_cases hw : s.mlen = -1
    · obtain ⟨-, hsum, hbound⟩ := h.waits hw
      have hval : (s.sum + sUtil s.c0 0).toNat = s.sum.toNat + s.c0.toNat :=
        toNat_add_ofNat (show _ + (s.c0.toNat + 0) < _ by omega)
      rw [if_pos hw, hval]
      exact hsum
    · rw [if_neg hw]
      exact (h.whole hw).2.1
  obtain ⟨hred, hred'⟩ := reduce_spec x
  have hsum : (reduce x).toNat = onesSum (words P) := by
    refine Same.eq_of_le ?_ hred (foldl_onesAdd_le (words_le P) (Nat.zero_le _))
    exact (hred'.trans hsame).trans (sum_words P ▸ (same_onesSum (words P)).symm)
  have hval : ~~~(reduce x) &&& 0xffff#32 = flatCksum P := by
    apply BitVec.eq_of_toNat_eq
    have hand : (4294967296 - 1 - (reduce x).toNat) &&& 65535 =
        (4294967296 - 1 - (reduce x).toNat) % 65536 := Nat.and_two_pow_sub_one_eq_mod _ 16
    rw [BitVec.toNat_and, BitVec.toNat_not, flatCksum, ← hsum]
    change (4294967296 - 1 - (reduce x).toNat) &&& 65535 = (65535 - (reduce x).toNat) % 4294967296
    rw [hand]
    omega
  rw [Cksum.finish, ← hx, hval, hl]
  rfl

/-- **The Internet checksum.** However the bytes are spread over the mbufs, and wherever these lie,
the result is the one's complement checksum of the first `len` bytes of the chain. Kind: P. -/
theorem inCksumC_eq (mem : Mem) (m : List Mbuf) (len : ℕ) (c0 : Byte) (hlen : len ≤ 65535)
    (hdata : len ≤ (flat mem m).length) :
    inCksumC mem m len c0 =
      some { value := flatCksum ((flat mem m).take len), outOfData := false } := by
  have hstart : Inv [] (start len c0) := by
    refine ⟨rfl, Int.natCast_nonneg len, ?_, nofun, fun _ => ⟨rfl, Same.refl 0, ?_⟩⟩
    · change (0 : ℤ) + len ≤ 65535
      omega
    · change (0 : ℤ) + 32768 * len < 4294967296
      omega
  obtain ⟨s, hrun, hinv, hl⟩ := cksumLoop_spec mem m hstart (Int.ofNat_le.mpr hdata)
  rw [nil_append] at hinv
  rw [inCksumC, hrun, Option.map_some]
  exact congrArg some (hinv.finish hl)

/-- Five bytes in two mbufs of which the second starts at an odd address. Kind: C. -/
theorem inCksumC_eq_split :
    inCksumC (fun a => BitVec.ofNat 8 (17 * a)) [⟨2, 3⟩, ⟨0, 0⟩, ⟨9, 4⟩] 5 0 =
      some { value := flatCksum [34, 51, 68, 153, 170], outOfData := false } :=
  inCksumC_eq _ _ 5 0 (by decide) (by decide)

/-! ## A packet and its checksum -/

theorem onesSum_words (P : List Byte) :
    onesSum (words P) ≤ 65535 ∧ Same (onesSum (words P)) (byteSum false P) :=
  ⟨foldl_onesAdd_le (words_le P) (Nat.zero_le _), sum_words P ▸ same_onesSum (words P)⟩

theorem inCksumC_of_flat {mem : Mem} {m : List Mbuf} {P rest : List Byte} (c0 : Byte)
    (hflat : flat mem m = P ++ rest) (hP : P.length ≤ 65535) :
    inCksumC mem m P.length c0 = some ⟨flatCksum P, false⟩ := by
  have hstart : Inv [] (start P.length c0) := by
    refine ⟨rfl, Int.natCast_nonneg _, ?_, nofun, fun _ => ⟨rfl, Same.refl 0, ?_⟩⟩
    · change (0 : ℤ) + P.length ≤ 65535
      omega
    · change (0 : ℤ) + 32768 * P.length < 4294967296
      omega
  obtain ⟨s, hrun, hinv, hl⟩ := cksumLoop_spec mem m hstart (by
    rw [hflat, length_append]
    exact Int.ofNat_le.mpr (Nat.le_add_right _ _))
  have htake : (flat mem m).take (start P.length c0).len.toNat = P := by
    rw [hflat]
    exact take_left' rfl
  rw [htake, nil_append] at hinv
  rw [inCksumC, hrun, Option.map_some]
  exact congrArg some (hinv.finish hl)

theorem byteSum_field {pre : List Byte} (hpre : oddLength pre = false) (lo hi : Byte) (post : List Byte) :
    byteSum false (pre ++ lo :: hi :: post) =
      byteSum false (pre ++ 0 :: 0 :: post) + (lo.toNat + 256 * hi.toNat) := by
  have hval (lo hi : Byte) : byteSum false (lo :: hi :: post) =
      lo.toNat + (256 * hi.toNat + byteSum false post) := rfl
  rw [byteSum_append_even hpre, byteSum_append_even hpre, hval, hval]
  change _ = _ + (0 + (256 * 0 + _)) + _
  omega

/-- **The receiver's check.** The checksum of a packet is taken with the field zero; a received packet that
differs in the field only has checksum 0 if and only if the field is that checksum, or `0xffff` for a checksum
of zero. The packets may be spread in any two ways. Source: in_cksum_c. Kind: P -/
theorem cksum_verifies {mem mem' : Mem} {m m' : List Mbuf} {pre post rest rest' : List Byte}
    {lo hi : Byte} (c0 c0' : Byte) (hpre : oddLength pre = false) (hlen : (pre ++ 0 :: 0 :: post).length ≤ 65535)
    (hsent : flat mem m = pre ++ 0 :: 0 :: post ++ rest)
    (hreceived : flat mem' m' = pre ++ lo :: hi :: post ++ rest') :
    ∃ c, inCksumC mem m (pre ++ 0 :: 0 :: post).length c0 = some ⟨c, false⟩ ∧
      (inCksumC mem' m' (pre ++ lo :: hi :: post).length c0' = some ⟨0, false⟩ ↔
        sUtil lo hi = c ∨ c = 0 ∧ sUtil lo hi = 0xffff#32) := by
  have hlen' : (pre ++ lo :: hi :: post).length ≤ 65535 := by
    rwa [length_append] at hlen ⊢
  refine ⟨_, inCksumC_of_flat c0 hsent hlen, ?_⟩
  rw [inCksumC_of_flat c0' hreceived hlen']
  obtain ⟨hle, hmod, hzero⟩ := onesSum_words (pre ++ 0 :: 0 :: post)
  obtain ⟨hle', hmod', hzero'⟩ := onesSum_words (pre ++ lo :: hi :: post)
  rw [byteSum_field hpre] at hmod' hzero'
  have hnum {a b : ℕ} (ha : a ≤ 65535) (hb : b ≤ 65535) : BitVec.ofNat 32 a = BitVec.ofNat 32 b ↔ a = b := by
    rw [← BitVec.toNat_inj, BitVec.toNat_ofNat, BitVec.toNat_ofNat]
    omega
  have hlo := lo.isLt
  have hhi := hi.isLt
  rw [Option.some_inj, Out.mk.injEq, and_iff_left rfl, flatCksum, flatCksum, sUtil]
  change BitVec.ofNat 32 _ = BitVec.ofNat 32 0 ↔ BitVec.ofNat 32 _ = BitVec.ofNat 32 _ ∨
    BitVec.ofNat 32 _ = BitVec.ofNat 32 0 ∧ BitVec.ofNat 32 _ = BitVec.ofNat 32 65535
  rw [hnum (by omega) (by omega), hnum (by omega) (by omega), hnum (by omega) (by omega),
    hnum (by omega) (by omega)]
  omega

/-- Two bytes and the field, sent from one mbuf and received in three. Kind: C -/
theorem cksum_verifies_split :
    inCksumC (fun a => BitVec.ofNat 8 (17 * a)) [⟨2, 2⟩, ⟨13, 1⟩, ⟨12, 1⟩] 4 0 = some ⟨0, false⟩ := by
  obtain ⟨c, hsent, hiff⟩ := @cksum_verifies (fun a => if a < 4 then BitVec.ofNat 8 (17 * a) else 0)
    (fun a => BitVec.ofNat 8 (17 * a)) [⟨2, 4⟩] [⟨2, 2⟩, ⟨13, 1⟩, ⟨12, 1⟩] [34, 51] [] [] [] 221 204 0 0
    (by decide) (by decide) (by decide) (by decide)
  cases hsent
  exact hiff.mpr (.inl (by decide))

end Bsd386.Net.Cksum
