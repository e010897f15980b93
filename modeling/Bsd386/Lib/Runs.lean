import Mathlib.Algebra.BigOperators.Ring.Finset
import Mathlib.Algebra.BigOperators.Intervals
import Mathlib.Tactic.Linarith

/-!
# Maximal runs of a word of bits

A word of `w` bits is a function `f : ℕ → Bool` of which the first `w` values count. `IsRun f w p n`
says that from `p` on there are exactly `n` set bits up to a clear one or the end of the word, and that
the run does not begin earlier; `runCount f w n` is the number of such runs and `bitCount f w` the
number of set bits.

* `bitCount_clear`, `runCount_full`, `runCount_congr`: the rest of what a client needs.
-/

namespace Bsd386.Lib

open Finset

/-- From `p` on, exactly `n` bits are set, and the run is not a part of a longer one. -/
structure IsRun (f : ℕ → Bool) (w p n : ℕ) : Prop where
  le : p + n ≤ w
  bits : ∀ i < n, f (p + i) = true
  left : p = 0 ∨ f (p - 1) = false
  right : p + n = w ∨ f (p + n) = false

instance (f : ℕ → Bool) (w p n : ℕ) : Decidable (IsRun f w p n) :=
  decidable_of_iff
    (p + n ≤ w ∧ (∀ i < n, f (p + i) = true) ∧ (p = 0 ∨ f (p - 1) = false) ∧
      (p + n = w ∨ f (p + n) = false))
    ⟨fun h => ⟨h.1, h.2.1, h.2.2.1, h.2.2.2⟩, fun h => ⟨h.le, h.bits, h.left, h.right⟩⟩

/-- The number of maximal runs of length `n`. -/
def runCount (f : ℕ → Bool) (w n : ℕ) : ℕ := ((Finset.range w).filter (IsRun f w · n)).card

def bitCount (f : ℕ → Bool) (w : ℕ) : ℕ := ((Finset.range w).filter (f · = true)).card

section runs

variable {f g : ℕ → Bool} {w p k n c : ℕ}

theorem IsRun.congr (hfg : ∀ j < w, g j = f j) (h : IsRun f w p n) (hn : 1 ≤ n) : IsRun g w p n := by
  have hle := h.le
  refine ⟨hle, ?_, ?_, ?_⟩
  · intro i hi
    rw [hfg _ (by omega)]
    exact h.bits i hi
  · refine h.left.imp_right fun hl => ?_
    rw [hfg _ (by omega)]
    exact hl
  · rcases Nat.eq_or_lt_of_le hle with heq | hlt
    · exact Or.inl heq
    · refine h.right.imp_right fun hr => ?_
      rw [hfg _ hlt]
      exact hr

theorem runCount_congr (hfg : ∀ j < w, g j = f j) (hn : 1 ≤ n) : runCount g w n = runCount f w n := by
  unfold runCount
  congr 1
  apply filter_congr
  intro p _
  exact ⟨fun h => h.congr (fun j hj => (hfg j hj).symm) hn, fun h => h.congr hfg hn⟩

theorem IsRun.length_unique (h : IsRun f w p n) (h' : IsRun f w p k) : n = k := by
  rcases Nat.lt_trichotomy n k with hlt | heq | hlt
  · rcases h.right with hend | hoff
    · have := h'.le
      omega
    · rw [h'.bits n hlt] at hoff
      exact absurd hoff (by decide)
  · exact heq
  · rcases h'.right with hend | hoff
    · have := h.le
      omega
    · rw [h.bits k hlt] at hoff
      exact absurd hoff (by decide)

theorem IsRun.disjoint (h : IsRun f w p k) {q : ℕ} (h' : IsRun f w q n) (hq : q ≠ p) : q + n < p ∨ p + k < q := by
  by_contra hmeet
  rcases Nat.lt_or_gt_of_ne hq with hlt | hlt
  · -- the bit before `p` belongs to the other run
    rcases h.left with h0 | hoff
    · omega
    rcases Nat.lt_or_ge (q + n) p with hend | hend
    · omega
    · have hbit := h'.bits (p - 1 - q) (by omega)
      rw [show q + (p - 1 - q) = p - 1 by omega, hoff] at hbit
      exact absurd hbit (by decide)
  · rcases h'.left with h0 | hoff
    · omega
    · have hbit := h.bits (q - 1 - p) (by omega)
      rw [show p + (q - 1 - p) = q - 1 by omega, hoff] at hbit
      exact absurd hbit (by decide)

/-! ## Clearing the front of a run -/

/-- The word with the bits from `p` to `p + c` cleared. -/
def clearFrom (f : ℕ → Bool) (p c : ℕ) (j : ℕ) : Bool := if p ≤ j ∧ j < p + c then false else f j

theorem clearFrom_of_mem {j : ℕ} (h : p ≤ j ∧ j < p + c) : clearFrom f p c j = false := if_pos h

theorem clearFrom_of_notMem {j : ℕ} (h : ¬(p ≤ j ∧ j < p + c)) : clearFrom f p c j = f j := if_neg h

theorem IsRun.rest (h : IsRun f w p k) (hc : 1 ≤ c) (hck : c ≤ k) :
    IsRun (clearFrom f p c) w (p + c) (k - c) := by
  have hle := h.le
  refine ⟨by omega, ?_, ?_, ?_⟩
  · intro i hi
    rw [clearFrom_of_notMem (by omega), Nat.add_assoc]
    exact h.bits _ (by omega)
  · exact Or.inr (clearFrom_of_mem (by omega))
  · rw [show p + c + (k - c) = p + k by omega]
    refine h.right.imp_right fun hr => ?_
    rw [clearFrom_of_notMem (by omega)]
    exact hr

theorem IsRun.keep (h : IsRun f w p k) (hck : c ≤ k) {q : ℕ} (h' : IsRun f w q n) (hq : q ≠ p) :
    IsRun (clearFrom f p c) w q n := by
  have hapart := h.disjoint h' hq
  refine ⟨h'.le, ?_, ?_, ?_⟩
  · intro i hi
    rw [clearFrom_of_notMem (by omega)]
    exact h'.bits i hi
  · refine h'.left.imp_right fun hl => ?_
    rw [clearFrom_of_notMem (by omega)]
    exact hl
  · refine h'.right.imp_right fun hr => ?_
    rw [clearFrom_of_notMem (by omega)]
    exact hr

theorem IsRun.of_clearFrom (h : IsRun f w p k) (hc : 1 ≤ c) {q : ℕ}
    (h' : IsRun (clearFrom f p c) w q n) (hn : 1 ≤ n) (hq : q ≠ p + c) : q ≠ p ∧ IsRun f w q n := by
  have hfirst : ¬(p ≤ q ∧ q < p + c) := by
    intro hmem
    have hbit := h'.bits 0 hn
    rw [Nat.add_zero, clearFrom_of_mem hmem] at hbit
    exact absurd hbit (by decide)
  have hbits : ∀ i < n, f (q + i) = true ∧ ¬(p ≤ q + i ∧ q + i < p + c) := by
    intro i hi
    have hbit := h'.bits i hi
    by_cases hmem : p ≤ q + i ∧ q + i < p + c
    · rw [clearFrom_of_mem hmem] at hbit
      exact absurd hbit (by decide)
    · rw [clearFrom_of_notMem hmem] at hbit
      exact ⟨hbit, hmem⟩
  have hbefore : q < p → q + n ≤ p := by
    intro hlt
    by_contra hgt
    exact (hbits (p - q) (by omega)).2 (by omega)
  -- the bit before a run that begins before `p` is outside the cleared part, as is that of a later one
  refine ⟨by omega, h'.le, fun i hi => (hbits i hi).1, ?_, ?_⟩
  · refine h'.left.imp_right fun hl => ?_
    rw [clearFrom_of_notMem (by omega)] at hl
    exact hl
  · rcases h'.right with hend | hoff
    · exact Or.inl hend
    · by_cases hmem : p ≤ q + n ∧ q + n < p + c
      · -- it would end where the run begins, whose left neighbour is clear
        rcases h.left with h0 | hl
        · omega
        · have hlast := (hbits (n - 1) (by omega)).1
          rw [show q + (n - 1) = p - 1 by omega, hl] at hlast
          exact absurd hlast (by decide)
      · rw [clearFrom_of_notMem hmem] at hoff
        exact Or.inr hoff

theorem runCount_eq_sum (f : ℕ → Bool) (w n : ℕ) :
    (runCount f w n : ℤ) = ∑ p ∈ Finset.range w, if IsRun f w p n then 1 else 0 := by
  unfold runCount
  rw [card_filter, Nat.cast_sum]
  apply sum_congr rfl
  intro p _
  exact Nat.cast_ite ..

/-- **The histogram of runs.** Clearing the first `c` bits of a run of length `k` takes one run of
length `k` out and puts one of length `k - c` in. -/
theorem runCount_clear (h : IsRun f w p k) (hc : 1 ≤ c) (hck : c ≤ k) (hn : 1 ≤ n) :
    (runCount (clearFrom f p c) w n : ℤ) =
      runCount f w n - (if n = k then 1 else 0) + (if n = k - c then 1 else 0) := by
  have hle := h.le
  have hpoint : ∀ q, (if IsRun (clearFrom f p c) w q n then (1 : ℤ) else 0) =
      (if IsRun f w q n then 1 else 0) - (if q = p then if n = k then 1 else 0 else 0) +
        (if q = p + c then if n = k - c then 1 else 0 else 0) := by
    intro q
    by_cases hqp : q = p
    · -- the run itself: it is one of length `k`, and gone afterwards
      subst hqp
      have hne : ¬ q = q + c := by omega
      have hgone : ¬ IsRun (clearFrom f q c) w q n := by
        intro h'
        have hbit := h'.bits 0 hn
        rw [Nat.add_zero, clearFrom_of_mem (by omega)] at hbit
        exact absurd hbit (by decide)
      rw [if_neg hgone, if_pos rfl, if_neg hne]
      by_cases hnk : n = k
      · subst hnk
        rw [if_pos h, if_pos rfl]
        rfl
      · rw [if_neg fun h' => hnk (h'.length_unique h), if_neg hnk]
        rfl
    · by_cases hqc : q = p + c
      · subst hqc
        have hbefore : ¬ IsRun f w (p + c) n := by
          intro h'
          have hapart := h.disjoint h' hqp
          omega
        rw [if_neg hbefore, if_neg hqp, if_pos rfl]
        by_cases hnk : n = k - c
        · subst hnk
          rw [if_pos (h.rest hc hck), if_pos rfl]
          rfl
        · rw [if_neg fun h' => hnk (h'.length_unique (h.rest hc hck)), if_neg hnk]
          rfl
      · rw [if_neg hqp, if_neg hqc, Int.sub_zero, Int.add_zero]
        by_cases hrun : IsRun f w q n
        · rw [if_pos hrun, if_pos (h.keep hck hrun hqp)]
        · rw [if_neg hrun, if_neg fun h' => hrun (h.of_clearFrom hc h' hn hqc).2]
  rw [runCount_eq_sum, runCount_eq_sum, sum_congr rfl fun q _ => hpoint q,
    sum_add_distrib, sum_sub_distrib, sum_ite_eq', sum_ite_eq',
    if_pos (mem_range.mpr (by omega))]
  by_cases hend : p + c < w
  · rw [if_pos (mem_range.mpr hend)]
  · have hnk : ¬ n = k - c := by omega
    rw [if_neg fun hmem => hend (mem_range.mp hmem), if_neg hnk]

theorem bitCount_clear (hbits : ∀ i < c, f (p + i) = true) (hle : p + c ≤ w) :
    bitCount (clearFrom f p c) w + c = bitCount f w := by
  have hset : (range w).filter (f · = true) =
      (range w).filter (clearFrom f p c · = true) ∪ Finset.Ico p (p + c) := by
    ext j
    simp only [mem_filter, mem_union, mem_range, mem_Ico]
    constructor
    · rintro ⟨hj, hbit⟩
      by_cases hmem : p ≤ j ∧ j < p + c
      · exact Or.inr hmem
      · exact Or.inl ⟨hj, (clearFrom_of_notMem hmem).trans hbit⟩
    · rintro (⟨hj, hbit⟩ | hmem)
      · by_cases hmem : p ≤ j ∧ j < p + c
        · rw [clearFrom_of_mem hmem] at hbit
          exact absurd hbit (by decide)
        · exact ⟨hj, (clearFrom_of_notMem hmem).symm.trans hbit⟩
      · refine ⟨by omega, ?_⟩
        have hbit := hbits (j - p) (by omega)
        rwa [show p + (j - p) = j by omega] at hbit
  have hdisj : Disjoint ((range w).filter (clearFrom f p c · = true))
      (Finset.Ico p (p + c)) := by
    rw [disjoint_left]
    intro j hj hmem
    have hbit := (mem_filter.mp hj).2
    rw [clearFrom_of_mem (mem_Ico.mp hmem)] at hbit
    exact absurd hbit (by decide)
  unfold bitCount
  rw [hset, card_union_of_disjoint hdisj, Nat.card_Ico, Nat.add_sub_cancel_left]

theorem isRun_full (h : ∀ j < w, f j = true) : IsRun f w 0 w :=
  ⟨Nat.le_of_eq (Nat.zero_add w), fun i hi => by rw [Nat.zero_add]; exact h i hi, Or.inl rfl,
    Or.inl (Nat.zero_add w)⟩

theorem runCount_full (h : ∀ j < w, f j = true) (hn : 1 ≤ n) :
    runCount f w n = if n = w then 1 else 0 := by
  have hrun := isRun_full h
  have hone : ∀ p, p < w → IsRun f w p n → p = 0 := by
    intro p hp hrun'
    by_contra hne
    have hapart := hrun.disjoint hrun' hne
    omega
  unfold runCount
  by_cases hnw : n = w
  · subst hnw
    have hset : (range n).filter (IsRun f n · n) = {0} := by
      ext p
      simp only [mem_filter, mem_range, mem_singleton]
      refine ⟨fun hp => hone p hp.1 hp.2, ?_⟩
      rintro rfl
      exact ⟨hn, hrun⟩
    rw [hset, if_pos rfl]
    rfl
  · rw [if_neg hnw, card_eq_zero, filter_eq_empty_iff]
    intro p hp hrun'
    have h0 := hone p (mem_range.mp hp) hrun'
    subst h0
    exact hnw (hrun'.length_unique hrun)

theorem bitCount_full (h : ∀ j < w, f j = true) : bitCount f w = w := by
  unfold bitCount
  rw [filter_true_of_mem fun j hj => h j (mem_range.mp hj), card_range]

theorem runCount_empty (h : ∀ j < w, f j = false) (hn : 1 ≤ n) : runCount f w n = 0 := by
  unfold runCount
  rw [card_eq_zero, filter_eq_empty_iff]
  intro p hp hrun
  have hbit := hrun.bits 0 hn
  rw [Nat.add_zero, h p (mem_range.mp hp)] at hbit
  exact absurd hbit (by decide)

end runs

end Bsd386.Lib
