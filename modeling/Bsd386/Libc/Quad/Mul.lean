import Mathlib.Data.BitVec
import Mathlib.Tactic.LinearCombination
import Mathlib.Tactic.Ring

/-!
# Quad multiplication

The `quad_t` multiplication of a machine that multiplies `long`s only, `lib/libc/quad/muldi3.c`.
-/

namespace Bsd386.Libc.Quad

open BitVec

/-- Source: HALF_BITS -/
abbrev ULong := BitVec 32

/-- Source: HHALF -/
def hhalf (x : ULong) : ULong := x >>> 16

/-- Source: LHALF -/
def lhalf (x : ULong) : ULong := x &&& 0xffff

/-- Source: LHUP -/
def lhup (x : ULong) : ULong := x <<< 16

/-- The quad with the words `ul[H]` and `ul[L]`. Source: union uu -/
def quad (h l : ULong) : BitVec 64 := h ++ l

/-- `ul[H]` of a quad. Source: union uu -/
def wordH (q : BitVec 64) : ULong := q.extractLsb' 32 32

/-- `ul[L]` of a quad. Source: union uu -/
def wordL (q : BitVec 64) : ULong := q.extractLsb' 0 32

/-- The value of a comparison as a number. -/
def int (p : Bool) : ULong := if p then 1 else 0

/-- A difference without its sign, and whether it is negative. Source: __lmulq, __muldi3 -/
def diff (x y : ULong) : ULong × Bool :=
  if x ≥ y then (x - y, false) else (y - x, true)

/-- The sum of the three products by their words. Source: __lmulq -/
def assemble (neg : Bool) (high mid low : ULong) : BitVec 64 :=
  -- prod = (high << 2N) + (high << N)
  let prodh := high + hhalf high
  let prodl := lhup high
  -- if (neg) prod -= mid << N; else prod += mid << N
  let was := prodl
  let prodl := if neg then prodl - lhup mid else prodl + lhup mid
  let prodh :=
    if neg then prodh - (hhalf mid + int (was < prodl)) else prodh + (hhalf mid + int (prodl < was))
  -- prod += low << N
  let was := prodl
  let prodl := prodl + lhup low
  let prodh := prodh + (hhalf low + int (prodl < was))
  -- ... + low
  let prodl := prodl + low
  let prodh := if prodl < low then prodh + 1 else prodh
  quad prodh prodl

/-- Source: __lmulq -/
def lmulq (u v : ULong) : BitVec 64 :=
  let u1 := hhalf u
  let u0 := lhalf u
  let v1 := hhalf v
  let v0 := lhalf v
  let low := u0 * v0
  if u1 = 0 ∧ v1 = 0 then
    low.setWidth 64
  else
    let udiff := diff u1 u0
    let vdiff := diff v0 v1
    let mid := udiff.1 * vdiff.1
    let high := u1 * v1
    assemble (udiff.2 ^^ vdiff.2) high mid low

/-- The product of the quads without their signs. Source: __muldi3 -/
def product (u v : BitVec 64) : BitVec 64 :=
  let u1 := wordH u
  let u0 := wordL u
  let v1 := wordH v
  let v0 := wordL v
  if u1 = 0 ∧ v1 = 0 then
    lmulq u0 v0
  else
    let low := lmulq u0 v0
    let udiff := diff u1 u0
    let vdiff := diff v0 v1
    let mid := udiff.1 * vdiff.1
    let high := u1 * v1
    quad (high + (if udiff.2 ^^ vdiff.2 then -mid else mid) + wordL low + wordH low) (wordL low)

/-- Source: __muldi3 -/
def muldi3 (a b : BitVec 64) : BitVec 64 :=
  let (u, negall) := if 0 ≤ a.toInt then (a, false) else (-a, true)
  let (v, negall) := if 0 ≤ b.toInt then (b, negall) else (-b, !negall)
  let prod := product u v
  if negall then -prod else prod

/-! ## Words and quads -/

theorem quad_toNat (h l : ULong) : (quad h l).toNat = h.toNat * 2 ^ 32 + l.toNat := by
  rw [quad, toNat_append, Nat.shiftLeft_eq, ← Nat.shiftLeft_eq, Nat.shiftLeft_add_eq_or_of_lt l.isLt]

theorem quad_words (q : BitVec 64) : quad (wordH q) (wordL q) = q := by
  apply eq_of_toNat_eq
  rw [quad_toNat]
  simp only [wordH, wordL, extractLsb'_toNat, Nat.shiftRight_eq_div_pow]
  have := q.isLt
  omega

theorem int_carry (l b : ULong) : (int (l + b < l)).toNat = (l.toNat + b.toNat) / 2 ^ 32 := by
  have hl := l.isLt
  have hb := b.isLt
  by_cases hc : l + b < l
  · rw [int, decide_eq_true hc, if_pos rfl]
    rw [lt_def, toNat_add] at hc
    change 1 = _
    omega
  rw [int, decide_eq_false hc, if_neg Bool.false_ne_true]
  rw [lt_def, toNat_add] at hc
  change 0 = _
  omega

theorem quad_add (h l a b : ULong) :
    quad (h + (a + int (l + b < l))) (l + b) = quad h l + quad a b := by
  apply eq_of_toNat_eq
  rw [quad_toNat, toNat_add, toNat_add, int_carry, toNat_add, toNat_add, quad_toNat, quad_toNat]
  omega

theorem quad_sub (h l a b : ULong) :
    quad (h - (a + int (l < l - b))) (l - b) = quad h l - quad a b := by
  have hadd := quad_add (h - (a + int (l < l - b))) (l - b) a b
  rw [sub_add_cancel, sub_add_cancel] at hadd
  exact eq_sub_of_add_eq hadd.symm

theorem quad_halves (x : ULong) : quad (hhalf x) (lhup x) = x.setWidth 64 * 2 ^ 16 := by
  apply eq_of_toNat_eq
  have hx := x.isLt
  rw [quad_toNat, toNat_mul, toNat_setWidth, hhalf, lhup, toNat_ushiftRight, toNat_shiftLeft,
    Nat.shiftRight_eq_div_pow, Nat.shiftLeft_eq]
  change _ = _ * 65536 % _
  omega

theorem quad_eq (h l : ULong) : quad h l = h.setWidth 64 * 2 ^ 32 + l.setWidth 64 := by
  apply eq_of_toNat_eq
  have hh := h.isLt
  have hl := l.isLt
  rw [quad_toNat, toNat_add, toNat_mul, toNat_setWidth, toNat_setWidth]
  change _ = (_ * 4294967296 % _ + _) % _
  omega

theorem word_halves (x : ULong) :
    x.setWidth 64 = (hhalf x).setWidth 64 * 2 ^ 16 + (lhalf x).setWidth 64 := by
  apply eq_of_toNat_eq
  have hand : x.toNat &&& 65535 = x.toNat % 65536 := Nat.and_two_pow_sub_one_eq_mod x.toNat 16
  rw [toNat_add, toNat_mul, toNat_setWidth, toNat_setWidth, toNat_setWidth, hhalf, lhalf,
    toNat_ushiftRight, Nat.shiftRight_eq_div_pow, toNat_and]
  change _ = (_ * 65536 % _ + (x.toNat &&& 65535) % _) % _
  omega

theorem quad_add_word (h l x : ULong) :
    quad (if l + x < x then h + 1 else h) (l + x) = quad h l + x.setWidth 64 := by
  have hcarry : int (l + x < x) = int (l + x < l) :=
    eq_of_toNat_eq <| by rw [int_carry l, add_comm l, int_carry, add_comm]
  have hif : (if l + x < x then h + 1 else h) = h + (0 + int (l + x < l)) := by
    rw [← hcarry, zero_add, int]
    by_cases hx : l + x < x
    · rw [if_pos hx, decide_eq_true hx, if_pos rfl]
    · rw [if_neg hx, decide_eq_false hx, if_neg Bool.false_ne_true, add_zero]
  rw [hif, quad_add, quad_eq 0]
  simp

theorem assemble_eq (neg : Bool) (high mid low : ULong) :
    assemble neg high mid low = high.setWidth 64 * 2 ^ 32 + high.setWidth 64 * 2 ^ 16 +
      (if neg then -mid.setWidth 64 else mid.setWidth 64) * 2 ^ 16 + low.setWidth 64 * 2 ^ 16 +
      low.setWidth 64 := by
  have hhigh : quad (high + hhalf high) (lhup high) =
      high.setWidth 64 * 2 ^ 32 + high.setWidth 64 * 2 ^ 16 := by
    have hadd := quad_add high 0 (hhalf high) (lhup high)
    rw [zero_add, quad_halves, quad_eq high 0, int,
      decide_eq_false (show ¬lhup high < 0 from not_lt_zero), if_neg Bool.false_ne_true,
      add_zero] at hadd
    rw [hadd]
    simp
  unfold assemble
  rw [quad_add_word, quad_add, quad_halves]
  cases neg
  · rw [if_neg Bool.false_ne_true, if_neg Bool.false_ne_true, quad_add, quad_halves, hhigh]
    rfl
  · rw [if_pos rfl, if_pos rfl, quad_sub, quad_halves, hhigh, if_pos rfl]
    ring

theorem setWidth_mul_of_lt {x y : ULong} (hx : x.toNat < 2 ^ 16) (hy : y.toNat < 2 ^ 16) :
    (x * y).setWidth 64 = x.setWidth 64 * y.setWidth 64 := by
  apply eq_of_toNat_eq
  have hlt : x.toNat * y.toNat < 2 ^ 16 * 2 ^ 16 := Nat.mul_lt_mul'' hx hy
  rw [toNat_setWidth, toNat_mul, toNat_mul, toNat_setWidth, toNat_setWidth,
    Nat.mod_eq_of_lt (a := x.toNat) (by omega), Nat.mod_eq_of_lt (a := y.toNat) (by omega)]
  omega

theorem setWidth_sub_of_le {x y : ULong} (h : y ≤ x) :
    (x - y).setWidth 64 = x.setWidth 64 - y.setWidth 64 := by
  apply eq_of_toNat_eq
  have hx := x.isLt
  have hle := le_def.mp h
  rw [toNat_setWidth, toNat_sub_of_le h, toNat_sub, toNat_setWidth, toNat_setWidth]
  omega

theorem diff_eq (x y : ULong) :
    (if (diff x y).2 then -(diff x y).1.setWidth 64 else (diff x y).1.setWidth 64) =
      x.setWidth 64 - y.setWidth 64 := by
  unfold diff
  by_cases hle : x ≥ y
  · rw [if_pos hle, if_neg Bool.false_ne_true, setWidth_sub_of_le hle]
  · rw [if_neg hle, if_pos rfl, setWidth_sub_of_le (BitVec.le_of_lt (BitVec.not_le.mp hle))]
    ring

theorem diff_word (x y : ULong) :
    (if (diff x y).2 then -(diff x y).1 else (diff x y).1) = x - y := by
  unfold diff
  by_cases hle : x ≥ y
  · rw [if_pos hle, if_neg Bool.false_ne_true]
  · rw [if_neg hle, if_pos rfl]
    ring

theorem signed_mul {R : Type} [CommRing R] (p q : Bool) (a b : R) :
    (if p ^^ q then -(a * b) else a * b) = (if p then -a else a) * if q then -b else b := by
  cases p <;> cases q <;> simp

theorem lmulq_eq (u v : ULong) : lmulq u v = u.setWidth 64 * v.setWidth 64 := by
  have hhigh (x : ULong) : (hhalf x).toNat < 2 ^ 16 := by
    rw [hhalf, toNat_ushiftRight, Nat.shiftRight_eq_div_pow]
    have := x.isLt
    omega
  have hlow (x : ULong) : (lhalf x).toNat < 2 ^ 16 :=
    (toNat_and x 0xffff).trans_lt (Nat.and_lt_two_pow _ (by decide))
  have hdiff {x y : ULong} (hx : x.toNat < 2 ^ 16) (hy : y.toNat < 2 ^ 16) :
      (diff x y).1.toNat < 2 ^ 16 := by
    unfold diff
    by_cases hle : x ≥ y
    · rw [if_pos hle, toNat_sub_of_le hle]
      omega
    · rw [if_neg hle, toNat_sub_of_le (BitVec.le_of_lt (BitVec.not_le.mp hle))]
      omega
  unfold lmulq
  rw [word_halves u, word_halves v]
  by_cases hzero : hhalf u = 0 ∧ hhalf v = 0
  · rw [if_pos hzero, setWidth_mul_of_lt (hlow u) (hlow v), hzero.1, hzero.2]
    simp
  rw [if_neg hzero]
  dsimp only
  rw [assemble_eq, setWidth_mul_of_lt (hhigh u) (hhigh v),
    setWidth_mul_of_lt (hlow u) (hlow v),
    setWidth_mul_of_lt (hdiff (hhigh u) (hlow u)) (hdiff (hlow v) (hhigh v)), signed_mul,
    diff_eq, diff_eq]
  ring

theorem setWidth_mul_high (x : ULong) (y : BitVec 64) (h : y.setWidth 32 = x) :
    x.setWidth 64 * 2 ^ 32 = y * 2 ^ 32 := by
  apply eq_of_toNat_eq
  have hval := congrArg BitVec.toNat h
  rw [toNat_setWidth] at hval
  rw [toNat_mul, toNat_mul, toNat_setWidth]
  change _ * 4294967296 % _ = _ * 4294967296 % _
  have := y.isLt
  omega

theorem karatsuba {R : Type} [CommRing R] {u1 u0 v1 v0 high low : R} (htop : (2 : R) ^ 64 = 0)
    (hlow : high * 2 ^ 32 + low = u0 * v0) :
    (u1 * v1 + (u1 - u0) * (v0 - v1) + low + high) * 2 ^ 32 + low =
      (u1 * 2 ^ 32 + u0) * (v1 * 2 ^ 32 + v0) := by
  linear_combination (1 + 2 ^ 32) * hlow - (high + u1 * v1) * htop

theorem product_eq (u v : BitVec 64) : product u v = u * v := by
  have hsplit (q : BitVec 64) :
      (wordH q).setWidth 64 * 2 ^ 32 + (wordL q).setWidth 64 = q := by
    rw [← quad_eq, quad_words]
  unfold product
  by_cases hzero : wordH u = 0 ∧ wordH v = 0
  · rw [if_pos hzero, lmulq_eq]
    nth_rewrite 2 [← hsplit u, ← hsplit v]
    rw [hzero.1, hzero.2]
    simp
  have hlow := hsplit (lmulq (wordL u) (wordL v))
  rw [if_neg hzero]
  dsimp only
  rw [quad_eq, setWidth_mul_high _ ((wordH u).setWidth 64 * (wordH v).setWidth 64 +
    ((wordH u).setWidth 64 - (wordL u).setWidth 64) *
      ((wordL v).setWidth 64 - (wordH v).setWidth 64) +
    (wordL (lmulq (wordL u) (wordL v))).setWidth 64 +
    (wordH (lmulq (wordL u) (wordL v))).setWidth 64)]
  · rw [lmulq_eq] at hlow ⊢
    rw [karatsuba (by decide +kernel) hlow, hsplit, hsplit]
  · have hle : 32 ≤ 64 := by decide
    rw [signed_mul, diff_word, diff_word, sub_eq_add_neg, sub_eq_add_neg]
    simp only [setWidth_add _ _ hle, setWidth_mul _ _ hle, setWidth_neg_of_le hle,
      setWidth_setWidth_of_le _ hle, setWidth_eq, sub_eq_add_neg]

theorem muldi3_eq (a b : BitVec 64) : muldi3 a b = a * b := by
  unfold muldi3
  by_cases ha : 0 ≤ a.toInt <;> by_cases hb : 0 ≤ b.toInt <;>
    simp [ha, hb, product_eq]

/-- **Quad multiplication.** -/
theorem muldi3_toInt (a b : BitVec 64) (u v : ULong) :
    (muldi3 a b).toInt = (a.toInt * b.toInt).bmod (2 ^ 64) ∧
      (lmulq u v).toNat = u.toNat * v.toNat := by
  refine ⟨by rw [muldi3_eq, toInt_mul], ?_⟩
  have hlt : u.toNat * v.toNat < 2 ^ 32 * 2 ^ 32 := Nat.mul_lt_mul'' u.isLt v.isLt
  have hu := u.isLt
  have hv := v.isLt
  rw [lmulq_eq, toNat_mul, toNat_setWidth, toNat_setWidth, Nat.mod_eq_of_lt (a := u.toNat) (by omega),
    Nat.mod_eq_of_lt (a := v.toNat) (by omega)]
  exact Nat.mod_eq_of_lt hlt

end Bsd386.Libc.Quad
