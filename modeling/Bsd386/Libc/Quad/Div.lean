import Bsd386.Libc.Quad.Mul

/-!
# Quad division

`__qdivrem` of `lib/libc/quad/qdivrem.c`: Knuth's algorithm D on digits of 16 bits, with the pieces of a
number as lists of digits, the most significant first.
-/

namespace Bsd386.Libc.Quad

open List
open BitVec (toNat_setWidth toNat_and toNat_or toNat_ushiftRight toNat_shiftLeft toNat_sub toNat_add toNat_mul)

/-- Source: digit -/
abbrev Digit := BitVec 16

def long (d : Digit) : ULong := d.setWidth 32

/-- A `u_long` stored in a digit. -/
def digit (x : ULong) : Digit := x.setWidth 16

/-- Source: COMBINE -/
def combine (a b : ULong) : ULong := a <<< 16 ||| b

/-- The digits of a quad. Source: __qdivrem -/
def digits (q : BitVec 64) : List Digit :=
  [digit (hhalf (wordH q)), digit (lhalf (wordH q)), digit (hhalf (wordL q)), digit (lhalf (wordL q))]

/-- The quad of the digits 1 to 4 of `uspace` or `qspace`. Source: __qdivrem -/
def quadAt (space : List Digit) : BitVec 64 :=
  quad (combine (long (space.getD 1 0)) (long (space.getD 2 0)))
    (combine (long (space.getD 3 0)) (long (space.getD 4 0)))

/-- Source: shl -/
def shl (sh : ℕ) : List Digit → List Digit
  | [] => []
  | [x] => [x <<< sh]
  | x :: y :: p => (x <<< sh ||| y >>> (16 - sh)) :: shl sh (y :: p)

/-- The digits of the remainder behind the digit `last` are shifted back. Source: __qdivrem -/
def shr (d : ℕ) : Digit → List Digit → List Digit
  | _, [] => []
  | last, x :: u => (x >>> d ||| last <<< (16 - d)) :: shr d x u

/-- Division by one digit. Source: __qdivrem -/
def divDigit (u : List Digit) (t : ULong) : BitVec 64 × BitVec 64 :=
  let q1 := digit (long (u.getD 0 0) / t)
  let rbj := combine (long (u.getD 0 0) % t) (long (u.getD 1 0))
  let q2 := digit (rbj / t)
  let rbj := combine (rbj % t) (long (u.getD 2 0))
  let q3 := digit (rbj / t)
  let rbj := combine (rbj % t) (long (u.getD 3 0))
  let q4 := digit (rbj / t)
  (quad (combine (long q1) (long q2)) (combine (long q3) (long q4)), (rbj % t).setWidth 64)

/-- D1: the loop that finds `d`, with the number of times it may go round. Source: __qdivrem -/
def shiftLoop : ℕ → ULong → Option ℕ
  | 0, _ => none
  | n + 1, t => if t < 0x8000 then (shiftLoop n (t <<< 1)).map (· + 1) else some 0

/-- D3: the loop that decrements `qhat`. Source: __qdivrem -/
def dropQhat (v1 v2 uj2 : ULong) : ℕ → ULong → ℕ
  | 0, _ => 0
  | qhat + 1, rhat =>
    if combine rhat uj2 < v2 * BitVec.ofNat 32 (qhat + 1) then
      if 0x10000 ≤ rhat + v1 then qhat else dropQhat v1 v2 uj2 qhat (rhat + v1)
    else
      qhat + 1

/-- D3: `qhat`. Source: __qdivrem -/
def estimate (v1 v2 uj0 uj1 uj2 : ULong) : ℕ :=
  if uj0 = v1 then
    -- qhat = B, rhat = uj1, and the loop is entered at `qhat_too_big`
    if 0x10000 ≤ uj1 + v1 then 0xffff else dropQhat v1 v2 uj2 0xffff (uj1 + v1)
  else
    dropQhat v1 v2 uj2 (combine uj0 uj1 / v1).toNat (combine uj0 uj1 % v1)

/-- D3: `qhat` for `u[j]` and `u[j + 1 .. j + n]`. Source: __qdivrem -/
def qhatOf (v : List Digit) (u0 : Digit) (us : List Digit) : ℕ :=
  estimate (long (v.getD 0 0)) (long (v.getD 1 0)) (long u0) (long (us.getD 0 0)) (long (us.getD 1 0))

/-- D4: the borrow `t` and the digits without `qhat` times the divisor. Source: __qdivrem -/
def mulSub (qhat : ULong) : List Digit → List Digit → ULong × List Digit
  | u :: us, v :: vs =>
    let r := mulSub qhat us vs
    let t := long u - long v * qhat - r.1
    ((0x10000 - hhalf t) &&& 0xffff, digit (lhalf t) :: r.2)
  | _, _ => (0, [])

/-- D6: the carry `t` and the digits with the divisor added back. Source: __qdivrem -/
def addBack : List Digit → List Digit → ULong × List Digit
  | u :: us, v :: vs =>
    let r := addBack us vs
    let t := r.1 + (long u + long v)
    (hhalf t, digit (lhalf t) :: r.2)
  | _, _ => (0, [])

/-- D3 to D6: `q[j]`, `u[j]` and `u[j + 1 .. j + n]`. Source: __qdivrem -/
def divStep (v : List Digit) (u0 : Digit) (us : List Digit) : Digit × Digit × List Digit :=
  let qhat := BitVec.ofNat 32 (qhatOf v u0 us)
  let r := mulSub qhat us v
  let t := long u0 - r.1
  if hhalf t ≠ 0 then
    let a := addBack r.2 v
    (digit (qhat - 1), digit (lhalf (long (digit (lhalf t)) + a.1)), a.2)
  else
    (digit qhat, digit (lhalf t), r.2)

/-- D7: the digits of the quotient and what is left in `u`. Source: __qdivrem -/
def divLoop (v : List Digit) : ℕ → List Digit → List Digit × List Digit
  | n + 1, u0 :: us =>
    let s := divStep v u0 (us.take v.length)
    let r := divLoop v n (s.2.2 ++ us.drop v.length)
    (s.1 :: r.1, s.2.1 :: r.2)
  | _, u => ([], u)

/-- D1: the digits shifted to the left by `d`. Source: __qdivrem -/
def scale (d : ℕ) (p : List Digit) : List Digit := if d > 0 then shl d p else p

/-- `u >> d`. Source: __qdivrem -/
def unscale (d m : ℕ) (u : List Digit) : List Digit :=
  if d > 0 then u.take m ++ 0 :: shr d (u.getD m 0) (u.drop (m + 1)) else u

/-- Program D: `q[0 .. m]` and the remainder in `u[0 .. m + n]`. Source: __qdivrem -/
def programD (m d : ℕ) (u v : List Digit) : List Digit × List Digit :=
  let r := divLoop (scale d v) (m + 1) (scale d (0 :: u))
  (r.1, unscale d m r.2)

/-- The quotient and the remainder; none for a division by zero. Source: __qdivrem -/
def qdivrem (uq vq : BitVec 64) : Option (BitVec 64 × BitVec 64) :=
  if vq = 0 then
    none
  else if uq < vq then
    some (0, uq)
  else
    let v := (digits vq).dropWhile (· == 0)
    let n := v.length
    if n = 1 then
      some (divDigit (digits uq) (long (v.getD 0 0)))
    else
      let u := (digits uq).dropWhile (· == 0)
      let m := u.length - n
      (shiftLoop 16 (long (v.getD 0 0))).map fun d =>
        let r := programD m d u v
        (quadAt (replicate (4 - m) 0 ++ r.1), quadAt (replicate (4 - (m + n)) 0 ++ r.2))

/-! ## Numbers by their digits -/

def value : List Digit → ℕ
  | [] => 0
  | d :: l => d.toNat * 65536 ^ l.length + value l

theorem value_lt (l : List Digit) : value l < 65536 ^ l.length := by
  induction l with
  | nil => exact Nat.one_pos
  | cons d l ih =>
    have hmul : d.toNat * 65536 ^ l.length + 65536 ^ l.length ≤ 65536 * 65536 ^ l.length :=
      Nat.succ_mul _ _ ▸ Nat.mul_le_mul_right _ d.isLt
    rw [value, length_cons, pow_succ']
    omega

theorem value_append (a b : List Digit) : value (a ++ b) = value a * 65536 ^ b.length + value b := by
  induction a with
  | nil => rw [nil_append, value, Nat.zero_mul, Nat.zero_add]
  | cons d a ih =>
    rw [cons_append, value, ih, value, length_append, pow_add]
    ring

theorem value_zero_cons (l : List Digit) : value (0 :: l) = value l :=
  (congrArg (· + value l) (Nat.zero_mul _)).trans (Nat.zero_add _)

theorem value_zeros (k : ℕ) (l : List Digit) : value (replicate k 0 ++ l) = value l := by
  induction k with
  | zero => rfl
  | succ k ih => exact (value_zero_cons _).trans ih

theorem value_dropWhile (l : List Digit) : value (l.dropWhile (· == 0)) = value l := by
  induction l with
  | nil => rfl
  | cons d l ih =>
    by_cases hd : d = 0
    · rw [dropWhile_cons, if_pos (beq_iff_eq.mpr hd), ih, hd, value_zero_cons]
    · rw [dropWhile_cons, if_neg fun h => hd (beq_iff_eq.mp h)]

theorem toNat_long (d : Digit) : (long d).toNat = d.toNat := by
  have := d.isLt
  rw [long, toNat_setWidth]
  omega

theorem toNat_lhalf (x : ULong) : (lhalf x).toNat = x.toNat % 65536 := by
  rw [lhalf, toNat_and]
  exact Nat.and_two_pow_sub_one_eq_mod x.toNat 16

theorem toNat_hhalf (x : ULong) : (hhalf x).toNat = x.toNat / 65536 := by
  rw [hhalf, toNat_ushiftRight, Nat.shiftRight_eq_div_pow]

theorem toNat_digit (x : ULong) : (digit x).toNat = x.toNat % 65536 := toNat_setWidth ..

theorem toNat_combine {a b : ULong} (ha : a.toNat < 65536) (hb : b.toNat < 65536) :
    (combine a b).toNat = a.toNat * 65536 + b.toNat := by
  rw [combine, toNat_or, toNat_shiftLeft, Nat.mod_eq_of_lt, ← Nat.shiftLeft_add_eq_or_of_lt hb,
    Nat.shiftLeft_eq]
  rw [Nat.shiftLeft_eq]
  omega

theorem value_digits (q : BitVec 64) : value (digits q) = q.toNat := by
  conv_rhs => rw [← quad_words q, quad_toNat]
  simp only [digits, value, toNat_digit, toNat_hhalf, toNat_lhalf, length_cons, length_nil]
  have := (wordH q).isLt
  have := (wordL q).isLt
  omega

theorem quadAt_toNat {s : List Digit} (hs : s.length = 5) (h : value s < 2 ^ 64) :
    (quadAt s).toNat = value s := by
  obtain _ | ⟨a, _ | ⟨b, _ | ⟨c, _ | ⟨d, _ | ⟨e, _ | ⟨f, l⟩⟩⟩⟩⟩⟩ := s <;> try cases hs
  have hlt (d : Digit) : (long d).toNat < 65536 := toNat_long d ▸ d.isLt
  simp only [value, length_cons, length_nil] at h ⊢
  change (quad (combine (long b) (long c)) (combine (long d) (long e))).toNat = _
  rw [quad_toNat, toNat_combine (hlt _) (hlt _), toNat_combine (hlt _) (hlt _), toNat_long, toNat_long,
    toNat_long, toNat_long]
  omega

/-! ## Shifts -/

theorem toNat_funnel (x y : Digit) {s : ℕ} (hs : s ≤ 16) :
    (x <<< s ||| y >>> (16 - s)).toNat = x.toNat % 2 ^ (16 - s) * 2 ^ s + y.toNat / 2 ^ (16 - s) := by
  have hpow : 2 ^ (16 - s) * 2 ^ s = 2 ^ 16 := by rw [← pow_add, Nat.sub_add_cancel hs]
  have hlow : y.toNat / 2 ^ (16 - s) < 2 ^ s := by
    rw [Nat.div_lt_iff_lt_mul (Nat.two_pow_pos _), Nat.mul_comm, hpow]
    exact y.isLt
  rw [toNat_or, toNat_shiftLeft, toNat_ushiftRight, Nat.shiftLeft_eq, Nat.shiftRight_eq_div_pow, ← hpow,
    Nat.mul_mod_mul_right, ← Nat.shiftLeft_eq, Nat.shiftLeft_add_eq_or_of_lt hlow]

theorem value_shl {s : ℕ} (hs : s ≤ 16) (x : Digit) (p : List Digit) :
    value (shl s (x :: p)) + x.toNat / 2 ^ (16 - s) * 65536 ^ (p.length + 1) = value (x :: p) * 2 ^ s ∧
      (shl s (x :: p)).length = p.length + 1 := by
  have hpow : 2 ^ (16 - s) * 2 ^ s = 65536 := by
    rw [← pow_add, Nat.sub_add_cancel hs]
    rfl
  have hx (x : Digit) : x.toNat * 2 ^ s =
      x.toNat % 2 ^ (16 - s) * 2 ^ s + x.toNat / 2 ^ (16 - s) * 65536 := by
    nth_rewrite 1 [← Nat.mod_add_div x.toNat (2 ^ (16 - s))]
    rw [Nat.add_mul, Nat.mul_right_comm, hpow, Nat.mul_comm 65536]
  induction p generalizing x with
  | nil =>
    have hval : value [x] * 2 ^ s = x.toNat * 2 ^ s := congrArg (· * _) (Nat.mul_one _)
    have hshl : value (shl s [x]) = x.toNat % 2 ^ (16 - s) * 2 ^ s := by
      simpa [shl, value] using toNat_funnel x 0 hs
    rw [hval, hshl, hx]
    exact ⟨rfl, rfl⟩
  | cons y p ih =>
    obtain ⟨hval, hlen⟩ := ih y
    rw [shl, value, toNat_funnel x y hs, hlen, value, length_cons, Nat.add_mul (x.toNat * _), ← hval,
      Nat.mul_right_comm, hx]
    exact ⟨by ring, congrArg (· + 1) hlen⟩

theorem value_shr {d : ℕ} (hd : d ≤ 16) (last : Digit) (u : List Digit) :
    value (shr d last u) = (last.toNat % 2 ^ d * 65536 ^ u.length + value u) / 2 ^ d ∧
      (shr d last u).length = u.length := by
  have hpow : 2 ^ (16 - d) * 2 ^ d = 65536 := by
    rw [← pow_add, Nat.sub_add_cancel hd]
    rfl
  have hpos := Nat.two_pow_pos d
  induction u generalizing last with
  | nil => exact ⟨(Nat.div_eq_of_lt ((Nat.mul_one _).trans_lt (Nat.mod_lt _ hpos))).symm, rfl⟩
  | cons x u ih =>
    obtain ⟨hval, hlen⟩ := ih x
    have hjoin := toNat_funnel last x (Nat.sub_le 16 d)
    rw [Nat.sub_sub_self hd, BitVec.or_comm] at hjoin
    refine ⟨?_, congrArg (· + 1) hlen⟩
    rw [shr, value, hjoin, hval, hlen, value, length_cons, pow_succ', ← hpow]
    nth_rewrite 3 [← Nat.mod_add_div x.toNat (2 ^ d)]
    rw [← Nat.mul_add_div hpos]
    congr 1
    ring

theorem shiftLoop_eq_some {n : ℕ} {t : ULong} (ht : t.toNat < 65536) (h : 32768 ≤ t.toNat * 2 ^ n) :
    ∃ d, shiftLoop (n + 1) t = some d ∧ t.toNat * 2 ^ d < 65536 := by
  have hone (hlt : ¬t < 0x8000) (n : ℕ) : shiftLoop (n + 1) t = some 0 := if_neg hlt
  induction n generalizing t with
  | zero =>
    have hlt : ¬t < 0x8000 := BitVec.not_lt.mpr (BitVec.le_def.mpr (Nat.mul_one t.toNat ▸ h))
    exact ⟨0, hone hlt 0, (Nat.mul_one t.toNat).trans_lt ht⟩
  | succ n ih =>
    by_cases hlt : t < 0x8000
    · have hval : (t <<< 1).toNat = t.toNat * 2 := by
        rw [toNat_shiftLeft, Nat.shiftLeft_eq]
        exact Nat.mod_eq_of_lt (by omega)
      have hsmall := BitVec.lt_def.mp hlt
      rw [pow_succ', ← Nat.mul_assoc] at h
      obtain ⟨d, hd, hd2⟩ := ih (hval ▸ (by change _ < 32768 at hsmall; omega)) (hval ▸ h)
        (fun h n => if_neg h)
      refine ⟨d + 1, ?_, ?_⟩
      · rw [shiftLoop, if_pos hlt, hd]
        rfl
      · rw [pow_succ', ← Nat.mul_assoc, ← hval]
        exact hd2
    · exact ⟨0, hone hlt (n + 1), (Nat.mul_one t.toNat).trans_lt ht⟩

/-! ## The digit of a quotient -/

theorem dropQhat_eq (v1 v2 u2 : Digit) (hv : 0 < v1.toNat) {k : ℕ} (hk : k < 65536) {rhat : ULong}
    (hr : rhat.toNat < 65536) :
    dropQhat (long v1) (long v2) (long u2) k rhat =
      min k (((k * v1.toNat + rhat.toNat) * 65536 + u2.toNat) / (v1.toNat * 65536 + v2.toNat)) := by
  have hD : 0 < v1.toNat * 65536 + v2.toNat := by omega
  have hsmall := v1.isLt
  have hmul {k : ℕ} (hk : k < 65536) : v2.toNat * k ≤ 65535 * 65535 :=
    Nat.mul_le_mul (Nat.le_of_lt_succ v2.isLt) (Nat.le_of_lt_succ hk)
  induction k generalizing rhat with
  | zero => exact (Nat.zero_min _).symm
  | succ k ih =>
    have hcond : combine rhat (long u2) < long v2 * BitVec.ofNat 32 (k + 1) ↔
        (((k + 1) * v1.toNat + rhat.toNat) * 65536 + u2.toNat) /
          (v1.toNat * 65536 + v2.toNat) < k + 1 := by
      have := hmul hk
      rw [BitVec.lt_def, toNat_combine hr (toNat_long u2 ▸ u2.isLt), toNat_mul, toNat_long, toNat_long,
        BitVec.toNat_ofNat, Nat.mod_eq_of_lt (a := k + 1) (by omega), Nat.mod_eq_of_lt (by omega),
        Nat.div_lt_iff_lt_mul hD, Nat.mul_add (k + 1), ← Nat.mul_assoc, Nat.mul_comm (k + 1) v2.toNat]
      omega
    have hsum : (rhat + long v1).toNat = rhat.toNat + v1.toNat := by
      rw [toNat_add, toNat_long]
      omega
    have hnext : k * v1.toNat + (rhat.toNat + v1.toNat) = (k + 1) * v1.toNat + rhat.toNat := by ring
    rw [dropQhat]
    by_cases hc : combine rhat (long u2) < long v2 * BitVec.ofNat 32 (k + 1)
    · rw [if_pos hc]
      have hlt := hcond.mp hc
      by_cases hover : 0x10000 ≤ rhat + long v1
      · -- no smaller digit fits, as `v2 * qhat < B * B`
        have hle := BitVec.le_def.mp hover
        rw [hsum] at hle
        change 65536 ≤ _ at hle
        have hk2 := hmul (Nat.lt_of_succ_lt hk)
        rw [if_pos hover, Nat.min_eq_right hlt.le]
        refine le_antisymm ((Nat.le_div_iff_mul_le hD).mpr ?_) (Nat.le_of_lt_succ hlt)
        rw [← hnext, Nat.mul_add k, ← Nat.mul_assoc, Nat.mul_comm k v2.toNat]
        omega
      · have hle := BitVec.lt_def.mp (BitVec.not_le.mp hover)
        rw [if_neg hover, ih (Nat.lt_of_succ_lt hk) hle, hsum, hnext, Nat.min_eq_right hlt.le,
          Nat.min_eq_right (Nat.le_of_lt_succ hlt)]
    · rw [if_neg hc, Nat.min_eq_left (Nat.not_lt.mp (mt hcond.mpr hc))]

theorem estimate_eq {v1 v2 u0 u1 u2 : Digit} (hv : 0 < v1.toNat) (hu : u0.toNat ≤ v1.toNat) :
    estimate (long v1) (long v2) (long u0) (long u1) (long u2) =
      min 65535
        (((u0.toNat * 65536 + u1.toNat) * 65536 + u2.toNat) / (v1.toNat * 65536 + v2.toNat)) := by
  have hD : 0 < v1.toNat * 65536 + v2.toNat := by omega
  have h1 := u1.isLt
  have hv1 := v1.isLt
  have harith {n a b u : ℕ} (h : n < a) (hu : u < 65536) : n * 65536 + u < a * 65536 + b := by omega
  unfold estimate
  by_cases heq : long u0 = long v1
  · have hval : u0.toNat = v1.toNat := by rw [← toNat_long, heq, toNat_long]
    have hsum : (long u1 + long v1).toNat = u1.toNat + v1.toNat := by
      rw [toNat_add, toNat_long, toNat_long]
      omega
    rw [if_pos heq, hval]
    by_cases hover : 0x10000 ≤ long u1 + long v1
    · have hle := BitVec.le_def.mp hover
      rw [hsum] at hle
      change 65536 ≤ _ at hle
      rw [if_pos hover, Nat.min_eq_left]
      have := v2.isLt
      refine (Nat.le_div_iff_mul_le hD).mpr ?_
      omega
    · have hle := BitVec.lt_def.mp (BitVec.not_le.mp hover)
      have hN : 65535 * v1.toNat + (u1.toNat + v1.toNat) = v1.toNat * 65536 + u1.toNat := by omega
      rw [if_neg hover, dropQhat_eq v1 v2 u2 hv (by decide) hle, hsum, hN]
  · have hne : u0.toNat ≠ v1.toNat := fun h =>
      heq (BitVec.eq_of_toNat_eq (by rw [toNat_long, toNat_long, h]))
    have hcomb : (combine (long u0) (long u1)).toNat = u0.toNat * 65536 + u1.toNat := by
      rw [toNat_combine (toNat_long u0 ▸ u0.isLt) (toNat_long u1 ▸ h1), toNat_long, toNat_long]
    have hq : (u0.toNat * 65536 + u1.toNat) / v1.toNat < 65536 := by
      rw [Nat.div_lt_iff_lt_mul hv]
      omega
    have hr := Nat.mod_lt (u0.toNat * 65536 + u1.toNat) hv
    have hmod : (combine (long u0) (long u1) % long v1).toNat =
        (u0.toNat * 65536 + u1.toNat) % v1.toNat := by
      rw [BitVec.toNat_umod, hcomb, toNat_long]
    rw [if_neg heq, BitVec.toNat_udiv, hcomb, toNat_long, dropQhat_eq v1 v2 u2 hv hq (hmod ▸ by omega),
      hmod, Nat.div_add_mod']
    have hle : ((u0.toNat * 65536 + u1.toNat) * 65536 + u2.toNat) / (v1.toNat * 65536 + v2.toNat) ≤
        (u0.toNat * 65536 + u1.toNat) / v1.toNat := by
      refine Nat.le_of_lt_add_one ((Nat.div_lt_iff_lt_mul hD).mpr ?_)
      rw [Nat.mul_add _ (v1.toNat * 65536), ← Nat.mul_assoc, Nat.mul_comm _ v1.toNat]
      exact harith (Nat.lt_mul_div_succ (u0.toNat * 65536 + u1.toNat) hv) u2.isLt
    rw [Nat.min_eq_right hle, Nat.min_eq_right (hle.trans (Nat.le_of_lt_succ hq))]

theorem sub_digit (u v : Digit) {qhat t : ULong} (hq : qhat.toNat < 65536) (ht : t.toNat < 65536) :
    let x := long u - long v * qhat - t
    let b := ((0x10000 - hhalf x) &&& 0xffff).toNat
    b < 65536 ∧ u.toNat + b * 65536 = (digit (lhalf x)).toNat + qhat.toNat * v.toNat + t.toNat := by
  dsimp only
  have hprod : v.toNat * qhat.toNat ≤ 65535 * 65535 :=
    Nat.mul_le_mul (Nat.le_of_lt_succ v.isLt) (Nat.le_of_lt_succ hq)
  have hu := u.isLt
  have hx : (long u - long v * qhat - t).toNat =
      (u.toNat + 2 ^ 33 - v.toNat * qhat.toNat - t.toNat) % 2 ^ 32 := by
    rw [toNat_sub, toNat_sub, toNat_mul, toNat_long, toNat_long]
    omega
  have hand (y : ULong) : (y &&& 0xffff).toNat = y.toNat % 65536 := toNat_lhalf y
  have hb : (0x10000 - hhalf (long u - long v * qhat - t)).toNat =
      65536 - (long u - long v * qhat - t).toNat / 65536 := by
    rw [toNat_sub, toNat_hhalf]
    change (2 ^ 32 - _ + 65536) % _ = _
    omega
  rw [hand, hb, toNat_digit, toNat_lhalf, hx, Nat.mul_comm qhat.toNat]
  omega

theorem mulSub_spec {qhat : ULong} (hq : qhat.toNat < 65536) {us vs : List Digit}
    (h : us.length = vs.length) :
    (mulSub qhat us vs).1.toNat < 65536 ∧ (mulSub qhat us vs).2.length = vs.length ∧
      value us + (mulSub qhat us vs).1.toNat * 65536 ^ vs.length =
        value (mulSub qhat us vs).2 + qhat.toNat * value vs := by
  induction us generalizing vs with
  | nil =>
    obtain rfl := length_eq_zero_iff.mp h.symm
    exact ⟨Nat.two_pow_pos 16, rfl, rfl⟩
  | cons u us ih =>
    obtain _ | ⟨v, vs⟩ := vs
    · cases h
    obtain ⟨ht, hlen, hval⟩ := ih (Nat.succ.inj h)
    obtain ⟨hb, hdig⟩ := sub_digit u v hq ht
    rw [mulSub]
    refine ⟨hb, congrArg (· + 1) hlen, ?_⟩
    dsimp only at hdig ⊢
    rw [value, value, value, hlen, Nat.succ.inj h, length_cons, pow_succ']
    linear_combination 65536 ^ vs.length * hdig + hval

theorem addBack_spec {us vs : List Digit} (h : us.length = vs.length) :
    (addBack us vs).1.toNat < 65536 ∧ (addBack us vs).2.length = vs.length ∧
      value us + value vs = value (addBack us vs).2 + (addBack us vs).1.toNat * 65536 ^ vs.length := by
  induction us generalizing vs with
  | nil =>
    obtain rfl := length_eq_zero_iff.mp h.symm
    exact ⟨Nat.two_pow_pos 16, rfl, rfl⟩
  | cons u us ih =>
    obtain _ | ⟨v, vs⟩ := vs
    · cases h
    obtain ⟨ht, hlen, hval⟩ := ih (Nat.succ.inj h)
    have hu := u.isLt
    have hv := v.isLt
    have hsum : ((addBack us vs).1 + (long u + long v)).toNat =
        (addBack us vs).1.toNat + u.toNat + v.toNat := by
      rw [toNat_add, toNat_add, toNat_long, toNat_long]
      omega
    rw [addBack]
    dsimp only
    rw [toNat_hhalf, hsum]
    refine ⟨by omega, congrArg (· + 1) hlen, ?_⟩
    have hdiv := Nat.mod_add_div ((addBack us vs).1.toNat + u.toNat + v.toNat) 65536
    rw [value, value, value, hlen, Nat.succ.inj h, length_cons, pow_succ', toNat_digit, toNat_lhalf,
      hsum, Nat.mod_mod]
    linear_combination hval - 65536 ^ vs.length * hdiv

theorem estimate_bounds {m d k x y : ℕ} (hd : 65536 ≤ d) (hx : x < k) (hy : y < k)
    (hlt : m * k + x < (d * k + y) * 65536) :
    min 65535 (m / d) * (d * k + y) < m * k + x + (d * k + y) ∧
      m * k + x < (min 65535 (m / d) + 1) * (d * k + y) := by
  have hmin : min 65535 (m / d) * d ≤ m :=
    (Nat.mul_le_mul_right d (Nat.min_le_right ..)).trans (Nat.div_mul_le_self m d)
  constructor
  · have hy2 := Nat.mul_le_mul (Nat.min_le_left 65535 (m / d)) hy.le
    have hk := Nat.mul_le_mul_right k hd
    have hm := Nat.mul_le_mul_right k hmin
    rw [Nat.mul_add, ← Nat.mul_assoc]
    omega
  · obtain hle | hle := Nat.le_total 65535 (m / d)
    · rw [Nat.min_eq_left hle]
      omega
    · rw [Nat.min_eq_right hle, Nat.mul_add, ← Nat.mul_assoc]
      have hm := Nat.mul_le_mul_right k (Nat.lt_mul_div_succ m (by omega : 0 < d))
      rw [Nat.succ_mul, Nat.mul_comm d] at hm
      omega

theorem qhatOf_spec {v us : List Digit} {u0 : Digit} (hn : 2 ≤ v.length)
    (hv : 65536 ^ (v.length - 1) ≤ value v) (hlen : us.length = v.length)
    (hlt : value (u0 :: us) < value v * 65536) :
    qhatOf v u0 us < 65536 ∧ qhatOf v u0 us * value v < value (u0 :: us) + value v ∧
      value (u0 :: us) < qhatOf v u0 us * value v + value v := by
  obtain _ | ⟨v1, _ | ⟨v2, vs⟩⟩ := v
  · cases hn
  · exact absurd hn (Nat.lt_irrefl 1)
  obtain _ | ⟨u1, _ | ⟨u2, ws⟩⟩ := us
  · cases hlen
  · cases hlen
  have hws : ws.length = vs.length := Nat.succ.inj (Nat.succ.inj hlen)
  have hhead : value (v2 :: vs) < 65536 ^ (vs.length + 1) := value_lt (v2 :: vs)
  have hvhead : value (v1 :: v2 :: vs) = v1.toNat * 65536 ^ (vs.length + 1) + value (v2 :: vs) := rfl
  have hpos : 0 < v1.toNat := Nat.pos_of_ne_zero fun hzero => by
    rw [hvhead, hzero, Nat.zero_mul, Nat.zero_add] at hv
    exact absurd hhead (Nat.not_lt.mpr hv)
  have hV : value (v1 :: v2 :: vs) = (v1.toNat * 65536 + v2.toNat) * 65536 ^ vs.length + value vs := by
    rw [value, value, length_cons, pow_succ]
    ring
  have hU : value (u0 :: u1 :: u2 :: ws) =
      ((u0.toNat * 65536 + u1.toNat) * 65536 + u2.toNat) * 65536 ^ vs.length + value ws := by
    rw [value, value, value, length_cons, length_cons, hws, pow_succ, pow_succ]
    ring
  have hus := value_lt ws
  rw [hws] at hus
  have hu0 : u0.toNat ≤ v1.toNat := by
    have hval : value (u0 :: u1 :: u2 :: ws) =
        u0.toNat * 65536 ^ (vs.length + 2) + value (u1 :: u2 :: ws) := by
      rw [value, hlen]
      rfl
    refine Nat.le_of_lt_add_one (Nat.lt_of_mul_lt_mul_right (a := 65536 ^ (vs.length + 2)) ?_)
    rw [hval, hvhead, pow_succ _ (vs.length + 1), Nat.add_mul, Nat.mul_assoc] at hlt
    rw [Nat.succ_mul, pow_succ _ (vs.length + 1)]
    omega
  have hbound := estimate_bounds (by omega) hus (value_lt vs) (hU ▸ hV ▸ hlt)
  rw [← @estimate_eq v1 v2 u0 u1 u2 hpos hu0, ← hU, ← hV, Nat.succ_mul] at hbound
  exact ⟨(estimate_eq hpos hu0).trans_lt (Nat.lt_succ_of_le (Nat.min_le_left ..)), hbound⟩

theorem divStep_spec {v us : List Digit} {u0 : Digit} (hn : 2 ≤ v.length)
    (hv : 65536 ^ (v.length - 1) ≤ value v) (hlen : us.length = v.length)
    (hlt : value (u0 :: us) < value v * 65536) :
    let s := divStep v u0 us
    s.2.1 = 0 ∧ s.2.2.length = v.length ∧ value s.2.2 < value v ∧
      value (u0 :: us) = s.1.toNat * value v + value s.2.2 := by
  obtain ⟨hsmall, hle, hge⟩ := qhatOf_spec hn hv hlen hlt
  have hVlt := value_lt v
  have hval : value (u0 :: us) = u0.toNat * 65536 ^ v.length + value us := by rw [value, hlen]
  unfold divStep
  generalize qhatOf v u0 us = qhat at *
  have hq : (BitVec.ofNat 32 qhat).toNat = qhat := Nat.mod_eq_of_lt (by omega)
  obtain ⟨ht, hrlen, hsub⟩ := mulSub_spec (hq.trans_lt hsmall) hlen
  dsimp only
  rw [hq] at hsub
  generalize mulSub (BitVec.ofNat 32 qhat) us v = r at *
  generalize value (u0 :: us) = u at *
  have hu0lt := u0.isLt
  have hmul (k : ℕ) (hk : k ≠ 0) : 65536 ^ v.length ≤ k * 65536 ^ v.length :=
    Nat.le_mul_of_pos_left _ (Nat.pos_of_ne_zero hk)
  obtain hcase | hcase := le_or_gt r.1.toNat u0.toNat
  · obtain ⟨k, hk⟩ := Nat.exists_eq_add_of_le hcase
    rw [hk, Nat.add_mul] at hval
    obtain rfl : k = 0 := by
      by_contra hk
      have := hmul k hk
      omega
    have hzero : long u0 - r.1 = 0 := BitVec.eq_of_toNat_eq <| by
      rw [toNat_sub, toNat_long, hk]
      change (_ - _ + _) % _ = 0
      omega
    rw [if_neg (by rw [hzero]; decide), hzero]
    refine ⟨rfl, hrlen, ?_⟩
    dsimp only
    rw [toNat_digit, hq, Nat.mod_eq_of_lt hsmall]
    omega
  -- `qhat` is one too large
  obtain ⟨k, hk⟩ := Nat.exists_eq_add_of_lt hcase
  obtain ⟨-, halen, hback⟩ := addBack_spec hrlen
  have hrlt := value_lt r.2
  have halt := value_lt (addBack r.2 v).2
  rw [hrlen] at hrlt
  rw [halen] at halt
  rw [hk, Nat.add_mul, Nat.add_mul] at hsub
  obtain rfl : k = 0 := by
    by_contra hk
    have := hmul k hk
    omega
  have hones : long u0 - r.1 = BitVec.ofNat 32 (2 ^ 32 - 1) := BitVec.eq_of_toNat_eq <| by
    rw [toNat_sub, toNat_long, hk]
    change (_ - _ + _) % _ = 2 ^ 32 - 1
    omega
  generalize addBack r.2 v = a at *
  have hcarry : a.1.toNat = 1 := by
    obtain hc | hc | ⟨c, hc⟩ : a.1.toNat = 0 ∨ a.1.toNat = 1 ∨ ∃ c, a.1.toNat = c + 2 := by
      obtain _ | _ | c := a.1.toNat
      · exact .inl rfl
      · exact .inr (.inl rfl)
      · exact .inr (.inr ⟨c, rfl⟩)
    · rw [hc] at hback
      omega
    · exact hc
    · rw [hc, Nat.add_mul] at hback
      omega
  rw [if_pos (by rw [hones]; decide), hones, BitVec.eq_of_toNat_eq (x := a.1) (y := 1) hcarry]
  rw [hcarry] at hback
  refine ⟨rfl, halen, ?_⟩
  obtain _ | qhat := qhat
  · omega
  have hpred : (digit (BitVec.ofNat 32 (qhat + 1) - 1)).toNat = qhat := by
    rw [toNat_digit, toNat_sub, hq]
    change (2 ^ 32 - 1 + _) % _ % _ = _
    omega
  dsimp only
  rw [Nat.succ_mul qhat] at hsub hle hge
  rw [hpred]
  omega

theorem divLoop_spec {v : List Digit} (hn : 2 ≤ v.length) (hv : 65536 ^ (v.length - 1) ≤ value v)
    {k : ℕ} {u : List Digit} (hlen : u.length = k + v.length) (hlt : value u < value v * 65536 ^ k) :
    let r := divLoop v k u
    r.1.length = k ∧ r.2.length = u.length ∧ value r.2 < value v ∧
      value u = value r.1 * value v + value r.2 := by
  induction k generalizing u with
  | zero => exact ⟨rfl, rfl, Nat.mul_one (value v) ▸ hlt, by simp [divLoop, value]⟩
  | succ k ih =>
    obtain _ | ⟨u0, us⟩ := u
    · cases hlen.trans (Nat.add_right_comm k 1 _)
    have hus : us.length = k + v.length := Nat.succ.inj (hlen.trans (Nat.add_right_comm k 1 _))
    have htake : (us.take v.length).length = v.length := by
      rw [length_take, hus]
      omega
    have hdrop : (us.drop v.length).length = k := by
      rw [length_drop, hus]
      omega
    have hsplit : value (u0 :: us) =
        value (u0 :: us.take v.length) * 65536 ^ k + value (us.drop v.length) := by
      rw [← hdrop, ← value_append, cons_append, take_append_drop]
    have hwin : value (u0 :: us.take v.length) < value v * 65536 := by
      refine Nat.lt_of_mul_lt_mul_right (a := 65536 ^ k) ?_
      rw [hsplit, pow_succ', ← Nat.mul_assoc] at hlt
      omega
    obtain ⟨hzero, hslen, hslt, hs⟩ := divStep_spec hn hv htake hwin
    rw [divLoop]
    generalize divStep v u0 (us.take v.length) = s at *
    have hrest := value_lt (us.drop v.length)
    rw [hdrop] at hrest
    have hnext := value_append s.2.2 (us.drop v.length)
    rw [hdrop] at hnext
    have hmul := Nat.mul_le_mul_right (65536 ^ k) hslt
    rw [Nat.succ_mul] at hmul
    obtain ⟨hq, hr, hrlt, hval⟩ := ih (u := s.2.2 ++ us.drop v.length)
      (by rw [length_append, hslen, hdrop, Nat.add_comm]) (by omega)
    dsimp only
    generalize divLoop v k (s.2.2 ++ us.drop v.length) = r at *
    have hqval : value (s.1 :: r.1) = s.1.toNat * 65536 ^ k + value r.1 := by rw [value, hq]
    rw [hzero, value_zero_cons, hqval, length_cons, length_cons, hr, hq, length_append, hslen, hdrop,
      hsplit, hs, hlen]
    refine ⟨rfl, by omega, hrlt, ?_⟩
    linear_combination hval - hnext

theorem value_scale {d : ℕ} (hd : d ≤ 16) {x : Digit} {p : List Digit} (hx : x.toNat * 2 ^ d < 65536) :
    value (scale d (x :: p)) = value (x :: p) * 2 ^ d ∧ (scale d (x :: p)).length = p.length + 1 := by
  unfold scale
  obtain rfl | hpos := Nat.eq_zero_or_pos d
  · exact ⟨(Nat.mul_one _).symm, rfl⟩
  obtain ⟨hval, hlen⟩ := value_shl hd x p
  have hpow : 2 ^ (16 - d) * 2 ^ d = 65536 := by
    rw [← pow_add, Nat.sub_add_cancel hd]
    rfl
  have hout : x.toNat / 2 ^ (16 - d) = 0 :=
    Nat.div_eq_of_lt (Nat.lt_of_mul_lt_mul_right (a := 2 ^ d) (hpow ▸ hx))
  rw [hout, Nat.zero_mul] at hval
  rw [if_pos hpos]
  exact ⟨hval, hlen⟩

theorem value_unscale {d m n : ℕ} (hd : d ≤ 16) {u : List Digit} (hlen : u.length = m + 1 + n)
    (hlt : value u < 65536 ^ n) :
    value (unscale d m u) = value u / 2 ^ d ∧ (unscale d m u).length = m + 1 + n := by
  unfold unscale
  obtain rfl | hpos := Nat.eq_zero_or_pos d
  · exact ⟨(Nat.div_one _).symm, hlen⟩
  have hm : m < u.length := by omega
  have hget : u.getD m 0 = u[m] := by
    rw [getD_eq_getElem?_getD, getElem?_eq_getElem hm, Option.getD_some]
  have hdrop : (u.drop (m + 1)).length = n := by
    rw [length_drop, hlen]
    omega
  have hsplit : value u =
      (value (u.take m) * 65536 + u[m].toNat) * 65536 ^ n + value (u.drop (m + 1)) := by
    nth_rewrite 1 [← take_append_drop m u, drop_eq_getElem_cons hm]
    rw [value_append, value, length_cons, hdrop, pow_succ]
    ring
  have hzero : value (u.take m) * 65536 + u[m].toNat = 0 := by
    by_contra hne
    have := Nat.le_mul_of_pos_left (65536 ^ n) (Nat.pos_of_ne_zero hne)
    omega
  obtain ⟨hval, hslen⟩ := value_shr hd u[m] (u.drop (m + 1))
  rw [show u[m].toNat = 0 by omega, Nat.zero_mod, Nat.zero_mul, Nat.zero_add] at hval
  rw [hzero, Nat.zero_mul, Nat.zero_add] at hsplit
  rw [if_pos hpos, hget, length_append, length_cons, hslen, hdrop, length_take, value_append,
    value_zero_cons, hval, hsplit, show value (u.take m) = 0 by omega, Nat.zero_mul, Nat.zero_add]
  exact ⟨rfl, by omega⟩

theorem combine_div {r t : ULong} (hr : r.toNat < t.toNat) (ht : t.toNat < 65536) (u : Digit) :
    (digit (combine r (long u) / t)).toNat * t.toNat + (combine r (long u) % t).toNat =
      r.toNat * 65536 + u.toNat ∧ (combine r (long u) % t).toNat < t.toNat := by
  have hcomb := toNat_combine (hr.trans ht) ((toNat_long u).trans_lt u.isLt)
  have hq : (r.toNat * 65536 + u.toNat) / t.toNat < 65536 := by
    have := u.isLt
    rw [Nat.div_lt_iff_lt_mul (Nat.zero_lt_of_lt hr)]
    omega
  rw [toNat_long] at hcomb
  rw [toNat_digit, BitVec.toNat_udiv, BitVec.toNat_umod, hcomb, Nat.mod_eq_of_lt hq]
  exact ⟨Nat.div_add_mod' .., Nat.mod_lt _ (Nat.zero_lt_of_lt hr)⟩

theorem divDigit_spec {u1 u2 u3 u4 : Digit} {t : ULong} (ht : t.toNat < 65536) (ht0 : 0 < t.toNat) :
    (divDigit [u1, u2, u3, u4] t).2.toNat < t.toNat ∧ value [u1, u2, u3, u4] =
      (divDigit [u1, u2, u3, u4] t).1.toNat * t.toNat + (divDigit [u1, u2, u3, u4] t).2.toNat := by
  have hzero : combine 0 (long u1) = long u1 := BitVec.eq_of_toNat_eq <| by
    rw [toNat_combine (by decide) (toNat_long u1 ▸ u1.isLt)]
    exact Nat.zero_add _
  obtain ⟨h1, hr1⟩ := combine_div (r := 0) ht0 ht u1
  rw [hzero] at h1 hr1
  obtain ⟨h2, hr2⟩ := combine_div hr1 ht u2
  obtain ⟨h3, hr3⟩ := combine_div hr2 ht u3
  obtain ⟨h4, hr4⟩ := combine_div hr3 ht u4
  have hwide (x : ULong) : (x.setWidth 64).toNat = x.toNat := by
    have := x.isLt
    rw [toNat_setWidth]
    omega
  have hquad (q1 q2 q3 q4 : Digit) :
      (quad (combine (long q1) (long q2)) (combine (long q3) (long q4))).toNat =
        value [q1, q2, q3, q4] := by
    have hlt := value_lt [q1, q2, q3, q4]
    have hlen : [q1, q2, q3, q4].length = 4 := rfl
    have hval := value_zero_cons [q1, q2, q3, q4]
    rw [hlen] at hlt
    exact (quadAt_toNat (s := [0, q1, q2, q3, q4]) rfl (by omega)).trans hval
  unfold divDigit
  simp only [getD_cons_zero, getD_cons_succ]
  rw [hwide, hquad]
  refine ⟨hr4, ?_⟩
  have hnone : (0 : ULong).toNat = 0 := rfl
  rw [hnone] at h1
  simp only [value, length_cons, length_nil]
  linear_combination 65536 ^ 3 * h1.symm + 65536 ^ 2 * h2.symm + 65536 * h3.symm + h4.symm

theorem dropWhile_head {l p : List Digit} {x : Digit} (h : l.dropWhile (· == 0) = x :: p) :
    0 < x.toNat := by
  have hne : l.dropWhile (· == 0) ≠ [] := h ▸ cons_ne_nil x p
  have hx := head_dropWhile_not (· == 0) (l := l) hne
  simp only [h, head_cons, beq_eq_false_iff_ne] at hx
  exact Nat.pos_of_ne_zero fun hzero => hx (BitVec.eq_of_toNat_eq hzero)

theorem programD_spec {v1 v2 : Digit} {vs u : List Digit} (hv : 0 < v1.toNat)
    (hle : value (v1 :: v2 :: vs) ≤ value u) {m : ℕ} (hm : m = u.length - (vs.length + 2)) :
    ∃ d, shiftLoop 16 (long v1) = some d ∧
      let r := programD m d u (v1 :: v2 :: vs)
      r.1.length = m + 1 ∧ r.2.length = m + 1 + (vs.length + 2) ∧ value r.2 < value (v1 :: v2 :: vs) ∧
        value u = value r.1 * value (v1 :: v2 :: vs) + value r.2 := by
  have hone : 65536 ^ (vs.length + 1) ≤ value (v1 :: v2 :: vs) :=
    (Nat.le_mul_of_pos_left _ hv).trans (Nat.le_add_right ..)
  have hult := value_lt u
  have hlen : vs.length + 2 ≤ u.length := by
    by_contra hlt
    have := Nat.pow_le_pow_right (show 0 < 65536 by decide) (show u.length ≤ vs.length + 1 by omega)
    omega
  obtain ⟨d, hd, hsmall⟩ := shiftLoop_eq_some (n := 15) ((toNat_long v1).trans_lt v1.isLt) (by
    rw [toNat_long]
    omega)
  rw [toNat_long] at hsmall
  have hd16 : d < 16 :=
    (Nat.pow_lt_pow_iff_right (a := 2) (by decide)).mp ((Nat.le_mul_of_pos_left _ hv).trans_lt hsmall)
  have hpos := Nat.two_pow_pos d
  refine ⟨d, hd, ?_⟩
  obtain ⟨hV, hVlen⟩ := value_scale hd16.le hsmall (p := v2 :: vs)
  obtain ⟨hU, hUlen⟩ := value_scale hd16.le (x := 0) (p := u)
    ((Nat.zero_mul (2 ^ d)).trans_lt (by decide))
  rw [value_zero_cons] at hU
  unfold programD
  generalize scale d (v1 :: v2 :: vs) = v at *
  generalize scale d (0 :: u) = u2 at *
  rw [length_cons] at hVlen
  have hn : 2 ≤ v.length := by omega
  have hw : 65536 ^ (v.length - 1) ≤ value v := by
    rw [hV, hVlen]
    exact hone.trans (Nat.le_mul_of_pos_right _ hpos)
  generalize value (v1 :: v2 :: vs) = val at *
  have hlt : value u2 < value v * 65536 ^ (m + 1) := by
    have hbig := Nat.mul_le_mul_right (65536 ^ (m + 1)) hone
    rw [← pow_add, show vs.length + 1 + (m + 1) = u.length by omega] at hbig
    rw [hU, hV, Nat.mul_right_comm]
    exact Nat.mul_lt_mul_of_pos_right (hult.trans_le hbig) hpos
  obtain ⟨hq, hrlen, hrlt, hval⟩ := divLoop_spec hn hw (k := m + 1) (u := u2) (by omega) hlt
  generalize divLoop v (m + 1) u2 = r at *
  have hVlt := value_lt v
  rw [hVlen] at hVlt
  obtain ⟨hrem, hremlen⟩ := value_unscale hd16.le (u := r.2) (m := m) (n := vs.length + 2) (by omega)
    (hrlt.trans hVlt)
  rw [hV, ← Nat.mul_assoc] at hval
  rw [hV] at hrlt
  have hqle : value r.1 * val ≤ value u := by
    refine Nat.le_of_mul_le_mul_right (c := 2 ^ d) ?_ hpos
    omega
  obtain ⟨rem, hr⟩ := Nat.exists_eq_add_of_le hqle
  have hr2 : value r.2 = rem * 2 ^ d := by
    rw [hU, hr, Nat.add_mul] at hval
    omega
  dsimp only
  rw [hrem, hr2, Nat.mul_div_cancel _ hpos]
  exact ⟨hq, hremlen, Nat.lt_of_mul_lt_mul_right (hr2 ▸ hrlt), hr⟩

/-- **Quad division.** -/
theorem qdivrem_eq (uq vq : BitVec 64) :
    qdivrem uq vq = if vq = 0 then none else some (uq / vq, uq % vq) := by
  have hdone {q r : BitVec 64} (h : uq.toNat = q.toNat * vq.toNat + r.toNat) (hr : r.toNat < vq.toNat) :
      some (q, r) = some (uq / vq, uq % vq) := by
    have hdiv := (Nat.div_mod_unique (Nat.zero_lt_of_lt hr)).mpr
      ⟨(Nat.add_comm ..).trans (Nat.mul_comm q.toNat vq.toNat ▸ h.symm), hr⟩
    refine congrArg some (Prod.ext (BitVec.eq_of_toNat_eq ?_) (BitVec.eq_of_toNat_eq ?_))
    · exact hdiv.1.symm.trans (BitVec.toNat_udiv ..).symm
    · exact hdiv.2.symm.trans (BitVec.toNat_umod ..).symm
  unfold qdivrem
  by_cases hzero : vq = 0
  · rw [if_pos hzero, if_pos hzero]
  rw [if_neg hzero, if_neg hzero]
  by_cases hlt : uq < vq
  · rw [if_pos hlt]
    exact hdone ((Nat.zero_add _).symm.trans (congrArg (· + _) (Nat.zero_mul _).symm)) hlt
  rw [if_neg hlt]
  have hle : vq.toNat ≤ uq.toNat := BitVec.le_def.mp (BitVec.not_lt.mp hlt)
  have huval := (value_dropWhile (digits uq)).trans (value_digits uq)
  have hvval := (value_dropWhile (digits vq)).trans (value_digits vq)
  have hulen : ((digits uq).dropWhile (· == 0)).length ≤ 4 := (dropWhile_sublist _).length_le
  have hvlen : ((digits vq).dropWhile (· == 0)).length ≤ 4 := (dropWhile_sublist _).length_le
  generalize hv : (digits vq).dropWhile (· == 0) = v at *
  obtain _ | ⟨v1, _ | ⟨v2, vs⟩⟩ := v
  · exact absurd (BitVec.eq_of_toNat_eq hvval.symm) hzero
  · have hpos := dropWhile_head hv
    have hval : (long v1).toNat = vq.toNat := by
      rw [toNat_long, ← hvval]
      exact (Nat.mul_one _).symm
    obtain ⟨hr, hdiv⟩ := @divDigit_spec (digit (hhalf (wordH uq))) (digit (lhalf (wordH uq)))
      (digit (hhalf (wordL uq))) (digit (lhalf (wordL uq))) (long v1)
      ((toNat_long v1).trans_lt v1.isLt) ((toNat_long v1).symm ▸ hpos)
    rw [hval] at hr hdiv
    exact hdone ((value_digits uq).symm.trans hdiv) hr
  · have hpos := dropWhile_head hv
    rw [length_cons, length_cons] at hvlen
    obtain ⟨d, hd, hq, hrlen, hrlt, hval⟩ :=
      programD_spec (u := (digits uq).dropWhile (· == 0)) hpos (by rw [hvval, huval]; exact hle) rfl
    have hspace {k : ℕ} {s : List Digit} (hlen : k + s.length = 5) (hs : value s ≤ uq.toNat) :
        (quadAt (replicate k 0 ++ s)).toNat = value s := by
      rw [← value_zeros k s] at hs ⊢
      exact quadAt_toNat (by rw [length_append, length_replicate, hlen]) (hs.trans_lt uq.isLt)
    dsimp only
    rw [if_neg (by simp), getD_cons_zero, hd]
    rw [hvval, huval] at hval
    rw [hvval] at hrlt
    rw [show (v1 :: v2 :: vs).length = vs.length + 2 from rfl]
    generalize (digits uq).dropWhile (· == 0) = u at *
    have hqle := Nat.le_mul_of_pos_right
      (value (programD (u.length - (vs.length + 2)) d u (v1 :: v2 :: vs)).1) (Nat.zero_lt_of_lt hrlt)
    refine hdone ?_ ?_
    · rw [hspace (by omega) (by omega), hspace (by omega) (by omega)]
      exact hval
    · rw [hspace (by omega) (by omega)]
      exact hrlt

end Bsd386.Libc.Quad
