import Bsd386.Libc.Vis.Basic
import Mathlib.Data.List.TakeWhile
import Mathlib.Tactic.Linarith
import Mathlib.Data.BitVec

/-!
# `strtoq`

`lib/libc/stdlib/strtoq.c`, in the C locale. A string is the list of the characters before its NUL, and
`endptr` is the number of the characters passed.
-/

namespace Bsd386.Libc.Strtoq

open Lib.Bytes Vis List

/-! ## The code -/

/-- Source: ctype.h (isspace) -/
def isspace (c : Byte) : Bool := c == 0x20 || 0x09 ≤ c && c ≤ 0x0d

/-- Source: ctype.h (isdigit) -/
def isdigit (c : Byte) : Bool := 0x30 ≤ c && c ≤ 0x39

/-- Source: ctype.h (isupper) -/
def isupper (c : Byte) : Bool := 0x41 ≤ c && c ≤ 0x5a

/-- Source: ctype.h (isalpha) -/
def isalpha (c : Byte) : Bool := isupper c || 0x61 ≤ c && c ≤ 0x7a

/-- The digit that a character is; none where the loop ends. Source: strtoq -/
def digit (base : ℕ) (c : Byte) : Option ℕ :=
  let d :=
    if isdigit c then some (c.toNat - 0x30)
    else if isalpha c then some (c.toNat - (if isupper c then 0x41 - 10 else 0x61 - 10))
    else none
  d.filter (· < base)

/-- The loop: `any`, `acc` and what is left. Source: strtoq -/
def digitsLoop (base : ℕ) (cutoff : BitVec 64) (cutlim : ℕ) :
    Int → BitVec 64 → List Byte → Int × BitVec 64 × List Byte
  | any, acc, [] => (any, acc, [])
  | any, acc, c :: s =>
    match digit base c with
    | none => (any, acc, c :: s)
    | some c =>
      if any < 0 ∨ cutoff < acc ∨ acc = cutoff ∧ cutlim < c then digitsLoop base cutoff cutlim (-1) acc s
      else digitsLoop base cutoff cutlim 1 (acc * BitVec.ofNat 64 base + BitVec.ofNat 64 c) s

/-- What the function returns and stores. -/
structure Result where
  value : BitVec 64
  erange : Bool
  endptr : ℕ
  deriving DecidableEq

/-- A `0x` or `0X`. Source: strtoq -/
def hexPrefix (s : List Byte) : Bool :=
  s.head? == some (ch '0') && (s[1]? == some (ch 'x') || s[1]? == some (ch 'X'))

/-- What follows the sign. Source: strtoq -/
def unsigned (s : List Byte) : List Byte :=
  if s.head? = some (ch '-') ∨ s.head? = some (ch '+') then s.tail else s

/-- Source: strtoq -/
def strtoq (nptr : List Byte) (base : ℕ) : Result :=
  let s := nptr.dropWhile isspace
  let neg := s.head? = some (ch '-')
  let s := unsigned s
  let hex := (base = 0 ∨ base = 16) ∧ hexPrefix s
  let s := if hex then s.drop 2 else s
  let base := if hex then 16 else if base = 0 then if s.head? = some (ch '0') then 8 else 10 else base
  let cutoff : BitVec 64 := if neg then 2 ^ 63 else 2 ^ 63 - 1
  let r := digitsLoop base (cutoff / BitVec.ofNat 64 base) (cutoff.toNat % base) 0 0 s
  { value := if r.1 < 0 then cutoff else if neg then -r.2.1 else r.2.1
    erange := r.1 < 0
    endptr := if r.1 ≠ 0 then nptr.length - r.2.2.length else 0 }

/-! ## The digits -/

def IsDigit (base : ℕ) (c : Byte) : Bool := (digit base c).isSome

/-- The number `a` with more digits. -/
def number (base a : ℕ) (l : List Byte) : ℕ := l.foldl (fun a c => a * base + (digit base c).getD 0) a

variable {base : ℕ}

theorem le_number (hb : 0 < base) (a : ℕ) (l : List Byte) : a ≤ number base a l := by
  induction l generalizing a with
  | nil => exact le_rfl
  | cons c l ih =>
    have hmul : a ≤ a * base := Nat.le_mul_of_pos_right a hb
    exact (hmul.trans (Nat.le_add_right _ _)).trans (ih _)

theorem digit_lt {c : Byte} {d : ℕ} (h : digit base c = some d) : d < base :=
  of_decide_eq_true (Option.filter_eq_some_iff.mp h).2

theorem cutoff_iff (hb : 0 < base) {limit a d : ℕ} (hd : d < base) :
    limit / base < a ∨ a = limit / base ∧ limit % base < d ↔ limit < a * base + d := by
  have hdiv := Nat.div_add_mod limit base
  have hmod := Nat.mod_lt limit hb
  rcases Nat.lt_trichotomy a (limit / base) with h | h | h
  · have hmul := Nat.mul_le_mul_right base (Nat.succ_le_of_lt h)
    rw [Nat.succ_mul, Nat.mul_comm (limit / base)] at hmul
    omega
  · rw [h, Nat.mul_comm]
    omega
  · have hmul := Nat.mul_le_mul_right base (Nat.succ_le_of_lt h)
    rw [Nat.succ_mul, Nat.mul_comm (limit / base)] at hmul
    omega

theorem digitsLoop_over (cutoff : BitVec 64) (cutlim : ℕ) (acc : BitVec 64) (s : List Byte) :
    digitsLoop base cutoff cutlim (-1) acc s = (-1, acc, s.dropWhile (IsDigit base)) := by
  induction s with
  | nil => rfl
  | cons c s ih =>
    rw [digitsLoop, dropWhile_cons, IsDigit]
    cases digit base c with
    | none => rfl
    | some d => exact (if_pos (.inl (by decide))).trans ih

theorem digitsLoop_spec (hb : 0 < base) (hb36 : base ≤ 36) (limit : BitVec 64) {any : Int} (hany : 0 ≤ any)
    {acc : BitVec 64} (hacc : acc.toNat ≤ limit.toNat) (s : List Byte) :
    ∃ a v, digitsLoop base (limit / BitVec.ofNat 64 base) (limit.toNat % base) any acc s =
        (a, v, s.dropWhile (IsDigit base)) ∧
      (number base acc.toNat (s.takeWhile (IsDigit base)) ≤ limit.toNat →
        v.toNat = number base acc.toNat (s.takeWhile (IsDigit base)) ∧
          a = if s.takeWhile (IsDigit base) = [] then any else 1) ∧
      (limit.toNat < number base acc.toNat (s.takeWhile (IsDigit base)) → a = -1) := by
  induction s generalizing any acc with
  | nil => exact ⟨any, acc, rfl, fun _ => ⟨rfl, rfl⟩, fun h => absurd h (not_lt.mpr hacc)⟩
  | cons c s ih =>
    rw [digitsLoop, takeWhile_cons, dropWhile_cons, IsDigit]
    cases hdig : digit base c with
    | none => exact ⟨any, acc, rfl, fun _ => ⟨rfl, rfl⟩, fun h => absurd h (not_lt.mpr hacc)⟩
    | some d =>
      have hd := digit_lt hdig
      have hbase : (BitVec.ofNat 64 base).toNat = base := by
        rw [BitVec.toNat_ofNat]
        omega
      have htest : (any < 0 ∨ limit / BitVec.ofNat 64 base < acc ∨
          acc = limit / BitVec.ofNat 64 base ∧ limit.toNat % base < d) ↔
            limit.toNat < acc.toNat * base + d := by
        rw [← cutoff_iff hb hd, BitVec.lt_def, ← BitVec.toNat_inj, BitVec.toNat_udiv, hbase]
        exact or_iff_right (not_lt.mpr hany)
      have hnum : number base acc.toNat (c :: s.takeWhile (IsDigit base)) =
          number base (acc.toNat * base + d) (s.takeWhile (IsDigit base)) := by
        rw [number, foldl_cons, hdig]
        rfl
      simp only [Option.isSome_some, if_true, hnum, cons_ne_nil, if_false]
      by_cases hover : limit.toNat < acc.toNat * base + d
      · have hlt := hover.trans_le (le_number hb _ (s.takeWhile (IsDigit base)))
        rw [if_pos (htest.mpr hover), digitsLoop_over]
        exact ⟨-1, acc, rfl, fun h => absurd hlt (not_lt.mpr h), fun _ => rfl⟩
      have hval : (acc * BitVec.ofNat 64 base + BitVec.ofNat 64 d).toNat = acc.toNat * base + d := by
        have hlim := limit.isLt
        rw [BitVec.toNat_add, BitVec.toNat_mul, hbase, BitVec.toNat_ofNat, ← Nat.add_mod]
        exact Nat.mod_eq_of_lt (by omega)
      obtain ⟨a, v, hloop, hfit, hbig⟩ := ih (show (0 : Int) ≤ 1 by decide) (hval ▸ not_lt.mp hover)
      rw [if_neg (mt htest.mp hover)]
      rw [hval] at hfit hbig
      exact ⟨a, v, hloop, fun h => ⟨(hfit h).1, (hfit h).2.trans (ite_self 1)⟩, hbig⟩

/-! ## What is to be read -/

/-- A `0x` or nothing before the digits `ds`, and the base of these. Source: none: what is claimed. -/
def Radix (base : ℕ) (hex ds : List Byte) (b : ℕ) : Prop :=
  hex = [] ∧ b = (if base = 0 then if ds.head? = some (ch '0') then 8 else 10 else base) ∨
    (base = 0 ∨ base = 16) ∧ hexPrefix hex ∧ hex.length = 2 ∧ b = 16

/-- White space, a sign or none, and a numeral: what it denotes. Source: none: what is claimed. -/
def Form (base : ℕ) (p : List Byte) (v : ℤ) : Prop :=
  ∃ sp sign hex ds b, p = sp ++ (sign ++ (hex ++ ds)) ∧ (∀ c ∈ sp, isspace c = true) ∧
    (sign = [] ∨ sign = [ch '+'] ∨ sign = [ch '-']) ∧ Radix base hex ds b ∧ ds ≠ [] ∧
    (∀ c ∈ ds, IsDigit b c = true) ∧ v = (if sign = [ch '-'] then -1 else 1) * number b 0 ds

/-- The longest prefix of the string that has the form. Source: none: what is claimed. -/
def Longest (base : ℕ) (s p : List Byte) (v : ℤ) : Prop :=
  p <+: s ∧ Form base p v ∧ ∀ q w, q <+: s → Form base q w → q.length ≤ p.length

/-- The result is right. Source: none: what is claimed. -/
def Exact (base : ℕ) (s : List Byte) : Prop :=
  (∃ p v, Longest base s p v ∧ strtoq s base =
    ⟨BitVec.ofInt 64 (max (-2 ^ 63) (min v (2 ^ 63 - 1))), decide (v < -2 ^ 63 ∨ 2 ^ 63 - 1 < v), p.length⟩) ∨
  (∀ q w, q <+: s → ¬Form base q w) ∧ strtoq s base = ⟨0, false, 0⟩

/-- A `0x` without a digit behind it. -/
def BareHex (base : ℕ) (s : List Byte) : Prop :=
  (base = 0 ∨ base = 16) ∧ hexPrefix (unsigned (s.dropWhile isspace)) ∧
    ((unsigned (s.dropWhile isspace)).drop 2).takeWhile (IsDigit 16) = []

theorem Radix.head {hex ds : List Byte} {b : ℕ} (h : Radix base hex ds b) (hne : ds ≠ [])
    (hds : ∀ c ∈ ds, IsDigit b c = true) :
    ∃ c l, hex ++ ds = c :: l ∧ isspace c = false ∧ c ≠ ch '-' ∧ c ≠ ch '+' := by
  have hdig (c : Byte) (hc : IsDigit b c = true) : isspace c = false ∧ c ≠ ch '-' ∧ c ≠ ch '+' := by
    have hchar : isdigit c = true ∨ isalpha c = true := by
      by_contra hcon
      push Not at hcon
      rw [IsDigit, digit, if_neg hcon.1, if_neg hcon.2] at hc
      exact absurd hc Bool.false_ne_true
    clear hc
    revert c
    decide
  rcases h with ⟨rfl, -⟩ | ⟨-, hhex, hlen, -⟩
  · obtain ⟨c, l, rfl⟩ := exists_cons_of_ne_nil hne
    exact ⟨c, l, rfl, hdig c (hds c mem_cons_self)⟩
  · obtain ⟨c, l, rfl⟩ := exists_cons_of_ne_nil (ne_nil_of_length_pos (hlen ▸ two_pos))
    have hc : c = ch '0' := by
      rw [hexPrefix, Bool.and_eq_true, beq_iff_eq] at hhex
      exact Option.some.inj hhex.1
    exact ⟨c, l ++ ds, rfl, hc ▸ by decide⟩

theorem Form.numeral {s q : List Byte} {v : ℤ} (h : Form base q v) (hq : q <+: s) :
    ∃ hex ds b, (hex ++ ds) <+: unsigned (s.dropWhile isspace) ∧ Radix base hex ds b ∧ ds ≠ [] ∧
      (∀ c ∈ ds, IsDigit b c = true) ∧
      q.length = s.length - (unsigned (s.dropWhile isspace)).length + (hex ++ ds).length := by
  obtain ⟨sp, sign, hex, ds, b, rfl, hsp, hsign, hrad, hne, hds, -⟩ := h
  obtain ⟨t, rfl⟩ := hq
  obtain ⟨c, l, hnum, hspace, hminus, hplus⟩ := hrad.head hne hds
  have hdrop : (sp ++ (sign ++ (hex ++ ds)) ++ t).dropWhile isspace = sign ++ (hex ++ ds) ++ t := by
    rw [append_assoc, dropWhile_append_of_pos hsp]
    rcases hsign with rfl | rfl | rfl
    · rw [hnum]
      exact dropWhile_cons_of_neg (by rw [hspace]; decide)
    · rfl
    · rfl
  have hbody : unsigned (sign ++ (hex ++ ds) ++ t) = hex ++ ds ++ t := by
    rw [hnum]
    rcases hsign with rfl | rfl | rfl
    · exact if_neg fun h => h.elim (fun h => hminus (Option.some.inj h)) fun h => hplus (Option.some.inj h)
    · exact if_pos (.inr rfl)
    · exact if_pos (.inl rfl)
  rw [hdrop, hbody]
  refine ⟨hex, ds, b, prefix_append _ _, hrad, hne, hds, ?_⟩
  simp only [length_append]
  omega

theorem cons_head?_tail {t : List Byte} {c : Byte} (h : t.head? = some c) : [c] ++ t.tail = t := by
  cases t with
  | nil => exact absurd h nofun
  | cons d t => exact congrArg (· :: t) (Option.some.inj h).symm

theorem exists_form {s ds : List Byte} {hex : List Byte} {b : ℕ} (hrad : Radix base hex ds b) (hne : ds ≠ [])
    (hds : ∀ c ∈ ds, IsDigit b c = true) (hp : hex ++ ds <+: unsigned (s.dropWhile isspace)) :
    ∃ p, p <+: s ∧ Form base p ((if (s.dropWhile isspace).head? = some (ch '-') then -1 else 1) * number b 0 ds) ∧
      p.length = s.length - (unsigned (s.dropWhile isspace)).length + (hex ++ ds).length := by
  obtain ⟨sign, hsplit, hsign⟩ : ∃ sign, sign ++ unsigned (s.dropWhile isspace) = s.dropWhile isspace ∧
      (sign = [] ∧ (s.dropWhile isspace).head? ≠ some (ch '-') ∨ sign = [ch '+'] ∧
        (s.dropWhile isspace).head? ≠ some (ch '-') ∨ sign = [ch '-'] ∧
        (s.dropWhile isspace).head? = some (ch '-')) := by
    generalize s.dropWhile isspace = t
    unfold unsigned
    by_cases hminus : t.head? = some (ch '-')
    · rw [if_pos (.inl hminus)]
      exact ⟨[ch '-'], cons_head?_tail hminus, .inr (.inr ⟨rfl, hminus⟩)⟩
    by_cases hplus : t.head? = some (ch '+')
    · rw [if_pos (.inr hplus)]
      exact ⟨[ch '+'], cons_head?_tail hplus, .inr (.inl ⟨rfl, hminus⟩)⟩
    · rw [if_neg (not_or.mpr ⟨hminus, hplus⟩)]
      exact ⟨[], rfl, .inl ⟨rfl, hminus⟩⟩
  have hs : s.takeWhile isspace ++ (sign ++ unsigned (s.dropWhile isspace)) = s := by
    rw [hsplit]
    exact takeWhile_append_dropWhile
  refine ⟨s.takeWhile isspace ++ (sign ++ (hex ++ ds)), ?_, ⟨_, sign, hex, ds, b, rfl,
    fun c hc => mem_takeWhile_imp hc, ?_, hrad, hne, hds, ?_⟩, ?_⟩
  · nth_rewrite 2 [← hs]
    exact (prefix_append_right_inj _).mpr ((prefix_append_right_inj _).mpr hp)
  · rcases hsign with ⟨h, -⟩ | ⟨h, -⟩ | ⟨h, -⟩
    · exact .inl h
    · exact .inr (.inl h)
    · exact .inr (.inr h)
  · rcases hsign with ⟨rfl, h⟩ | ⟨rfl, h⟩ | ⟨rfl, h⟩
    · rw [if_neg h, if_neg nofun]
    · rw [if_neg h, if_neg (by decide)]
    · rw [if_pos h, if_pos rfl]
  · have hlen := congrArg length hs
    simp only [length_append] at hlen ⊢
    omega

theorem length_takeWhile_ge {f : Byte → Bool} {l t : List Byte} (hp : l <+: t) (hl : ∀ c ∈ l, f c = true) :
    l.length ≤ (t.takeWhile f).length := by
  obtain ⟨r, rfl⟩ := hp
  rw [takeWhile_append_of_pos hl, length_append]
  exact Nat.le_add_right _ _

/-! ## The function -/

/-- The base and the characters of the numeral that the code finds. Source: strtoq -/
def found (base : ℕ) (t : List Byte) : List Byte × ℕ :=
  if (base = 0 ∨ base = 16) ∧ hexPrefix t then (t.take 2, 16)
  else ([], if base = 0 then if t.head? = some (ch '0') then 8 else 10 else base)

def digits (base : ℕ) (t : List Byte) : List Byte :=
  (t.drop (found base t).1.length).takeWhile (IsDigit (found base t).2)

theorem found_le (hb : base = 0 ∨ 2 ≤ base ∧ base ≤ 36) (t : List Byte) :
    0 < (found base t).2 ∧ (found base t).2 ≤ 36 := by
  unfold found
  split_ifs <;> dsimp only <;> omega

theorem hexPrefix_length {t : List Byte} (h : hexPrefix t = true) : 2 ≤ t.length := by
  rw [hexPrefix, Bool.and_eq_true, Bool.or_eq_true, beq_iff_eq, beq_iff_eq, beq_iff_eq] at h
  rcases h.2 with h | h
  · exact (List.getElem?_eq_some_iff.mp h).1
  · exact (List.getElem?_eq_some_iff.mp h).1

theorem exists_two {l : List Byte} (h : 2 ≤ l.length) : ∃ x y r, l = x :: y :: r := by
  obtain ⟨x, l, rfl⟩ := exists_cons_of_length_pos (two_pos.trans_le h)
  obtain ⟨y, r, rfl⟩ := exists_cons_of_length_pos (Nat.lt_of_succ_lt_succ h)
  exact ⟨x, y, r, rfl⟩

theorem found_append (t : List Byte) : (found base t).1 ++ t.drop (found base t).1.length = t := by
  unfold found
  by_cases h : (base = 0 ∨ base = 16) ∧ hexPrefix t = true
  · rw [if_pos h, length_take, Nat.min_eq_left (hexPrefix_length h.2)]
    exact take_append_drop 2 t
  · rw [if_neg h]
    rfl

theorem clamp {neg : Prop} [Decidable neg] {n : ℕ} {a : ℤ} {w : BitVec 64}
    (hfit : n ≤ (if neg then 2 ^ 63 else 2 ^ 63 - 1 : BitVec 64).toNat → w.toNat = n ∧ a = 1)
    (hbig : (if neg then 2 ^ 63 else 2 ^ 63 - 1 : BitVec 64).toNat < n → a = -1) :
    (if a < 0 then if neg then 2 ^ 63 else 2 ^ 63 - 1 else if neg then -w else w) =
        BitVec.ofInt 64 (max (-2 ^ 63) (min ((if neg then -1 else 1) * (n : ℤ)) (2 ^ 63 - 1))) ∧
      decide (a < 0) = decide ((if neg then -1 else 1) * (n : ℤ) < -2 ^ 63 ∨
        2 ^ 63 - 1 < (if neg then -1 else 1) * (n : ℤ)) ∧ a ≠ 0 := by
  by_cases hneg : neg
  · simp only [if_pos hneg] at hfit hbig ⊢
    have hlim : (2 ^ 63 : BitVec 64).toNat = 2 ^ 63 := by decide +kernel
    rw [hlim] at hfit hbig
    by_cases hle : n ≤ 2 ^ 63
    · obtain ⟨hw, rfl⟩ := hfit hle
      refine ⟨?_, decide_eq_decide.mpr (iff_of_false (by decide) (by omega)), by decide⟩
      rw [if_neg (by decide), max_eq_right (by omega), min_eq_left (by omega), neg_one_mul,
        BitVec.ofInt_neg, BitVec.ofInt_natCast, ← hw, BitVec.ofNat_toNat, BitVec.setWidth_eq]
    · obtain rfl := hbig (not_le.mp hle)
      refine ⟨?_, decide_eq_decide.mpr (iff_of_true (by decide) (by omega)), by decide⟩
      rw [if_pos (by decide), max_eq_left (by omega)]
      decide +kernel
  · simp only [if_neg hneg, one_mul] at hfit hbig ⊢
    have hlim : (2 ^ 63 - 1 : BitVec 64).toNat = 2 ^ 63 - 1 := by decide +kernel
    rw [hlim] at hfit hbig
    by_cases hle : n ≤ 2 ^ 63 - 1
    · obtain ⟨hw, rfl⟩ := hfit hle
      refine ⟨?_, decide_eq_decide.mpr (iff_of_false (by decide) (by omega)), by decide⟩
      rw [if_neg (by decide), max_eq_right (by omega), min_eq_left (by omega), BitVec.ofInt_natCast, ← hw,
        BitVec.ofNat_toNat, BitVec.setWidth_eq]
    · obtain rfl := hbig (not_le.mp hle)
      refine ⟨?_, decide_eq_decide.mpr (iff_of_true (by decide) (by omega)), by decide⟩
      rw [if_pos (by decide), max_eq_right (by omega), min_eq_right (by omega)]
      decide +kernel

theorem unsigned_length_le (s : List Byte) : (unsigned (s.dropWhile isspace)).length ≤ s.length := by
  have hdrop := length_dropWhile_le isspace s
  unfold unsigned
  split_ifs
  · rw [length_tail]
    omega
  · exact hdrop

theorem strtoq_eq (hb : base = 0 ∨ 2 ≤ base ∧ base ≤ 36) (s t hex ds : List Byte) (b : ℕ) (v : ℤ)
    (ht : unsigned (s.dropWhile isspace) = t) (hf : found base t = (hex, b))
    (hds : (t.drop hex.length).takeWhile (IsDigit b) = ds)
    (hv : (if (s.dropWhile isspace).head? = some (ch '-') then -1 else 1) * (number b 0 ds : ℤ) = v) :
    strtoq s base = if ds = [] then ⟨0, false, 0⟩ else
      ⟨BitVec.ofInt 64 (max (-2 ^ 63) (min v (2 ^ 63 - 1))), decide (v < -2 ^ 63 ∨ 2 ^ 63 - 1 < v),
        s.length - t.length + (hex ++ ds).length⟩ := by
  have hb36 := found_le hb t
  have happ : (found base t).1 ++ t.drop (found base t).1.length = t := found_append t
  rw [hf] at hb36 happ
  have hrest : (if (base = 0 ∨ base = 16) ∧ hexPrefix t = true then t.drop 2 else t) = t.drop hex.length ∧
      (if (base = 0 ∨ base = 16) ∧ hexPrefix t = true then 16
        else if base = 0 then if (if (base = 0 ∨ base = 16) ∧ hexPrefix t = true then t.drop 2 else t).head? =
          some (ch '0') then 8 else 10 else base) = b := by
    unfold found at hf
    by_cases h : (base = 0 ∨ base = 16) ∧ hexPrefix t = true
    · rw [if_pos h, Prod.mk.injEq] at hf
      rw [if_pos h, if_pos h, ← hf.1, ← hf.2, length_take, Nat.min_eq_left (hexPrefix_length h.2)]
      exact ⟨rfl, rfl⟩
    · rw [if_neg h, Prod.mk.injEq] at hf
      rw [if_neg h, if_neg h, ← hf.1, ← hf.2]
      exact ⟨rfl, rfl⟩
  obtain ⟨a, w, hloop, hfit, hbig⟩ := @digitsLoop_spec b hb36.1 hb36.2
    (if (s.dropWhile isspace).head? = some (ch '-') then 2 ^ 63 else 2 ^ 63 - 1) 0 le_rfl 0 (Nat.zero_le _)
    (t.drop hex.length)
  rw [hds, show (0 : BitVec 64).toNat = 0 from rfl] at hfit hbig
  have hstr : strtoq s base = Result.mk
      (if a < 0 then if (s.dropWhile isspace).head? = some (ch '-') then 2 ^ 63 else 2 ^ 63 - 1
        else if (s.dropWhile isspace).head? = some (ch '-') then -w else w) (decide (a < 0))
      (if a ≠ 0 then s.length - ((t.drop hex.length).dropWhile (IsDigit b)).length else 0) := by
    simp only [strtoq, ht]
    rw [hrest.2, hrest.1, hloop]
  have hlen : s.length - ((t.drop hex.length).dropWhile (IsDigit b)).length =
      s.length - t.length + (hex ++ ds).length := by
    have hsplit := congrArg length (takeWhile_append_dropWhile (p := IsDigit b) (l := t.drop hex.length))
    have hts : t.length ≤ s.length := ht ▸ unsigned_length_le s
    have happ' := congrArg length happ
    rw [hds] at hsplit
    simp only [length_append] at hsplit happ' ⊢
    omega
  rw [hstr, hlen, ← hv]
  by_cases hnil : ds = []
  · obtain ⟨hw, ha⟩ := hfit (by rw [hnil]; exact Nat.zero_le _)
    rw [if_pos hnil] at ha ⊢
    rw [hnil] at hw
    rw [ha, BitVec.eq_of_toNat_eq (y := 0) hw]
    rw [if_neg (lt_irrefl 0), show -(0 : BitVec 64) = 0 from rfl, ite_self, if_neg (not_not.mpr rfl)]
    rfl
  rw [if_neg hnil] at hfit ⊢
  obtain ⟨hval, hrange, hany⟩ := clamp hfit hbig
  rw [hval, hrange, if_pos hany]

theorem head?_of_initial {l t : List Byte} (hp : l <+: t) (hne : l ≠ []) : l.head? = t.head? := by
  obtain ⟨r, rfl⟩ := hp
  obtain ⟨c, l, rfl⟩ := exists_cons_of_ne_nil hne
  rfl

theorem length_le_one {t ds : List Byte} {b : ℕ} (hhex : hexPrefix t = true) (hp : ds <+: t)
    (hds : ∀ c ∈ ds, IsDigit b c = true) (hb : b ≤ 16) : ds.length ≤ 1 := by
  by_contra hlen
  have hmem := hds _ (getElem_mem (not_le.mp hlen))
  rw [hp.getElem] at hmem
  rw [hexPrefix, Bool.and_eq_true, Bool.or_eq_true, beq_iff_eq, beq_iff_eq, beq_iff_eq] at hhex
  obtain ⟨d, hd⟩ := Option.isSome_iff_exists.mp hmem
  have hlt := digit_lt hd
  rcases hhex.2 with h | h
  · rw [(List.getElem?_eq_some_iff.mp h).2, digit] at hd
    obtain rfl : 33 = d := Option.some.inj (Option.filter_eq_some_iff.mp hd).1
    omega
  · rw [(List.getElem?_eq_some_iff.mp h).2, digit] at hd
    obtain rfl : 33 = d := Option.some.inj (Option.filter_eq_some_iff.mp hd).1
    omega

theorem found_longest {t hex ds : List Byte} {b : ℕ} (hrad : Radix base hex ds b) (hne : ds ≠ [])
    (hds : ∀ c ∈ ds, IsDigit b c = true) (hp : hex ++ ds <+: t)
    (hbare : (base = 0 ∨ base = 16) ∧ hexPrefix t = true → (t.drop 2).takeWhile (IsDigit 16) ≠ []) :
    digits base t ≠ [] ∧ (hex ++ ds).length ≤ ((found base t).1 ++ digits base t).length := by
  have hpos := length_pos_iff.mpr hne
  unfold digits found
  rcases hrad with ⟨rfl, hb⟩ | ⟨hbase, hhex, hlen, rfl⟩
  · rw [nil_append] at hp ⊢
    by_cases h : (base = 0 ∨ base = 16) ∧ hexPrefix t = true
    · have hle : b ≤ 16 := by
        rw [hb]
        split_ifs <;> omega
      have hshort := length_le_one h.2 hp hds hle
      rw [if_pos h, length_append, length_take, Nat.min_eq_left (hexPrefix_length h.2)]
      exact ⟨hbare h, by omega⟩
    · rw [head?_of_initial hp hne] at hb
      have hge := length_takeWhile_ge hp hds
      rw [if_neg h, ← hb]
      exact ⟨ne_nil_of_length_pos (hpos.trans_le hge), hge⟩
  · obtain ⟨r, rfl⟩ := hp
    obtain ⟨x, y, hex, rfl⟩ := exists_two hlen.ge
    obtain rfl : hex = [] := length_eq_zero_iff.mp (Nat.add_right_cancel (m := 2) hlen)
    have hge := length_takeWhile_ge (prefix_append ds r) hds
    rw [if_pos ⟨hbase, hhex⟩]
    refine ⟨ne_nil_of_length_pos (hpos.trans_le hge), ?_⟩
    rw [length_append, length_append]
    exact Nat.add_le_add_left hge 2

theorem found_initial (t : List Byte) : (found base t).1 ++ digits base t <+: t := by
  have hpre := (prefix_append_right_inj (found base t).1).mpr
    ( takeWhile_prefix (IsDigit (found base t).2) (l := t.drop (found base t).1.length))
  rwa [found_append] at hpre

theorem found_radix {t : List Byte} (hne : digits base t ≠ []) :
    Radix base (found base t).1 (digits base t) (found base t).2 := by
  unfold digits at hne ⊢
  by_cases h : (base = 0 ∨ base = 16) ∧ hexPrefix t = true
  · rw [found, if_pos h]
    obtain ⟨x, y, t, rfl⟩ := exists_two (hexPrefix_length h.2)
    exact .inr ⟨h.1, h.2, rfl, rfl⟩
  · have hhead := head?_of_initial ( takeWhile_prefix _) hne
    rw [found, if_neg h] at hhead ⊢
    exact .inl ⟨rfl, by rw [hhead]; rfl⟩

/-- **The conversion** is right, but for a `0x` without a digit behind it. Kind: D -/
theorem strtoq_exact_iff (base : ℕ) (hb : base = 0 ∨ 2 ≤ base ∧ base ≤ 36) (s : List Byte) :
    Exact base s ↔ ¬BareHex base s := by
  have hstr := strtoq_eq hb s _ (found base (unsigned (s.dropWhile isspace))).1
    (digits base (unsigned (s.dropWhile isspace))) (found base (unsigned (s.dropWhile isspace))).2 _ rfl rfl rfl rfl
  constructor
  · rintro hexact ⟨hbase, hhex, hnil⟩
    have hres : strtoq s base = ⟨0, false, 0⟩ := by
      rw [hstr, if_pos]
      rw [digits, found, if_pos ⟨hbase, hhex⟩, length_take, Nat.min_eq_left (hexPrefix_length hhex)]
      exact hnil
    rcases hexact with ⟨p, v, ⟨hp, hform, -⟩, hlong⟩ | ⟨hno, -⟩
    · obtain ⟨hex, ds, b, -, -, hne, -, hlen⟩ := hform.numeral hp
      have hend := congrArg Result.endptr (hres.symm.trans hlong)
      have hpos := length_pos_iff.mpr hne
      rw [hlen, length_append] at hend
      exact absurd hend (by simp only; omega)
    · -- the 0 alone is a numeral
      have hzero : (unsigned (s.dropWhile isspace)).head? = some (ch '0') := by
        rw [hexPrefix, Bool.and_eq_true, beq_iff_eq] at hhex
        exact hhex.1
      have hrad : Radix base [] [ch '0'] (if base = 0 then 8 else base) := .inl ⟨rfl, rfl⟩
      obtain ⟨p, hp, hform, -⟩ := exists_form (s := s) hrad (cons_ne_nil _ _)
        (by rcases hbase with rfl | rfl <;> decide) ⟨_, cons_head?_tail hzero⟩
      exact hno p _ hp hform
  · intro hbare
    have hlongest {q : List Byte} {w : ℤ} (hq : q <+: s) (hform : Form base q w) :
        digits base (unsigned (s.dropWhile isspace)) ≠ [] ∧
          q.length ≤ s.length - (unsigned (s.dropWhile isspace)).length +
            ((found base (unsigned (s.dropWhile isspace))).1 ++
              digits base (unsigned (s.dropWhile isspace))).length := by
      obtain ⟨hex, ds, b, hp, hrad, hne, hds, hlen⟩ := hform.numeral hq
      obtain ⟨hsome, hle⟩ := found_longest hrad hne hds hp fun h hnil => hbare ⟨h.1, h.2, hnil⟩
      exact ⟨hsome, hlen.trans_le (Nat.add_le_add_left hle _)⟩
    by_cases hnil : digits base (unsigned (s.dropWhile isspace)) = []
    · exact .inr ⟨fun q w hq hform => (hlongest hq hform).1 hnil, hstr.trans (if_pos hnil)⟩
    · obtain ⟨p, hp, hform, hlen⟩ := exists_form (s := s) (found_radix hnil) hnil
        (fun c hc => mem_takeWhile_imp hc) (found_initial _)
      refine .inl ⟨p, _, ⟨hp, hform, fun q w hq hw => (hlongest hq hw).2.trans_eq hlen.symm⟩, ?_⟩
      rw [hstr, if_neg hnil, hlen]

/-- Witness of `strtoq_exact_iff`. -/
theorem strtoq_exact_twelve : Exact 10 ("12".toList.map ch) :=
  (strtoq_exact_iff 10 (by decide) _).mpr fun h => absurd h.1 (by decide)

/-- **The `0x` is passed** before the digit behind it is asked for. Kind: D -/
theorem not_strtoq_exact : ¬Exact 16 ("0xg".toList.map ch) := by
  rintro (⟨p, v, ⟨⟨r, hr⟩, ⟨sp, sign, hex, ds, b, rfl, -, -, -, hne, -⟩, -⟩, hres⟩ | ⟨hno, -⟩)
  · have hend := congrArg Result.endptr hres
    have hzero : (strtoq ("0xg".toList.map ch) 16).endptr = 0 := by decide +kernel
    rw [hzero] at hend
    have hnil := length_eq_zero_iff.mp hend.symm
    simp only [append_eq_nil_iff] at hnil
    exact hne hnil.2.2.2
  · exact hno [ch '0'] 0 ⟨_, rfl⟩ ⟨[], [], [], [ch '0'], 16, rfl, nofun, .inl rfl, .inl ⟨rfl, rfl⟩,
      cons_ne_nil _ _, by decide, by decide⟩

end Bsd386.Libc.Strtoq
