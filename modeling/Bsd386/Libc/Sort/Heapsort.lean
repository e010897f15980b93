import Bsd386.Lib.Rearrange
import Mathlib.Algebra.Ring.Nat

/-!
# `heapsort`

`lib/libc/stdlib/heapsort.c`: the elements are numbered from 1 to `nmemb`, and the macro `HEAP` lets
the element `i` sink below its larger children.

The indexes `i`, `j` and `l` are `int`s that are compared with the `size_t` `nmemb`: they wrap modulo
`2 ^ 32`. A comparison or an exchange of an index that is not one of the array stops a run here
(`none`), as does the end of the fuel, the bound of the passes of one `HEAP`.
-/

namespace Bsd386.Libc.Sort

open Lib.Rearrange

variable {α : Type}

/-- `SWAP(a, b)`. The pointers, which it moves past the elements, are set again before their next use.
Source: SWAP -/
def swap (m : ℕ → α) (a b : ℕ) : ℕ → α := exchange m a b

/-- The larger child, where there are two. Source: HEAP -/
def child (compar : α → α → Int) (nmemb : ℕ) (m : ℕ → α) (j : ℕ) : ℕ :=
  if j < nmemb ∧ compar (m j) (m (j + 1)) < 0 then j + 1 else j

/-- `HEAP(initval)` in an array of `N` elements. Source: HEAP -/
def heap (compar : α → α → Int) (N nmemb : ℕ) : ℕ → ℕ → (ℕ → α) → Option (ℕ → α)
  | 0, _, _ => none
  | fuel + 1, i, m =>
    let j := i * 2 % 2 ^ 32
    if nmemb < j then
      some m
    else if (1 ≤ i ∧ i ≤ N) ∧ (1 ≤ j ∧ j ≤ N) ∧ (j < nmemb → j + 1 ≤ N) then
      let p := child compar nmemb m j
      if compar (m p) (m i) ≤ 0 then some m else heap compar N nmemb fuel p (swap m i p)
    else
      none

/-- The first loop, from `l` down. Source: heapsort -/
def build (compar : α → α → Int) (nmemb fuel : ℕ) : ℕ → (ℕ → α) → Option (ℕ → α)
  | 0, m => some m
  | l + 1, m => (heap compar nmemb nmemb fuel (l + 1) m).bind (build compar nmemb fuel l)

/-- The second loop. Source: heapsort -/
def drain (compar : α → α → Int) (N fuel : ℕ) : ℕ → (ℕ → α) → Option (ℕ → α)
  | 0, m => some m
  | nmemb + 1, m =>
    if 1 < nmemb + 1 then
      if nmemb + 1 ≤ N then
        (heap compar N nmemb fuel 1 (swap m 1 (nmemb + 1))).bind (drain compar N fuel nmemb)
      else
        none
    else
      some m

/-- The value returned and the array. Source: heapsort -/
def heapsort (fuel : ℕ) (compar : α → α → Int) (nmemb size : ℕ) (m : ℕ → α) :
    Option (Int × (ℕ → α)) :=
  if nmemb ≤ 1 then
    some (0, m)
  else if size = 0 then
    some (-1, m)
  else
    ((build compar nmemb fuel (nmemb / 2) m).bind (drain compar nmemb fuel nmemb)).map (0, ·)

/-- Every array of `nmemb` elements is sorted, within it. Source: none: what is claimed. -/
def Sorts (nmemb : ℕ) : Prop :=
  ∀ (α : Type) (compar : α → α → Int) (size : ℕ) (m : ℕ → α), Compares compar → 0 < size →
    ∃ fuel m2, heapsort fuel compar nmemb size m = some (0, m2) ∧
      Rearranged 1 nmemb m m2 ∧ Sorted compar 1 nmemb m2

/-! ## The heap -/

variable {compar : α → α → Int} {N n lo i : ℕ} {m : ℕ → α}

/-- The children of the elements from `lo` on are not above them. Source: HEAP -/
def Heap (compar : α → α → Int) (lo n : ℕ) (m : ℕ → α) : Prop :=
  ∀ j, 2 ≤ j → j ≤ n → lo ≤ j / 2 → compar (m j) (m (j / 2)) ≤ 0

/-- The same but for the children of `i`, which are not above its own parent. Source: HEAP -/
structure HeapBut (compar : α → α → Int) (lo n i : ℕ) (m : ℕ → α) : Prop where
  others : ∀ j, 2 ≤ j → j ≤ n → lo ≤ j / 2 → j / 2 ≠ i → compar (m j) (m (j / 2)) ≤ 0
  grand : ∀ j, j ≤ n → j / 2 = i → lo ≤ i / 2 → compar (m j) (m (i / 2)) ≤ 0

theorem child_spec (hc : Compares compar) (hle : i * 2 ≤ n) :
    child compar n m (i * 2) / 2 = i ∧ child compar n m (i * 2) ≤ n ∧
      ∀ j, j ≤ n → j / 2 = i → compar (m j) (m (child compar n m (i * 2))) ≤ 0 := by
  unfold child
  by_cases hlt : i * 2 < n ∧ compar (m (i * 2)) (m (i * 2 + 1)) < 0
  · rw [if_pos hlt]
    refine ⟨by omega, hlt.1, fun j _ hj => ?_⟩
    obtain rfl | rfl : j = i * 2 ∨ j = i * 2 + 1 := by omega
    · exact le_of_lt hlt.2
    · exact hc.refl _
  rw [if_neg hlt]
  refine ⟨by omega, hle, fun j hn hj => ?_⟩
  obtain rfl | rfl : j = i * 2 ∨ j = i * 2 + 1 := by omega
  · exact hc.refl _
  · exact hc.le_of_not_lt fun h => hlt ⟨by omega, h⟩

theorem HeapBut.sink (h : HeapBut compar lo n i m) (hlo : 1 ≤ lo) (hi : lo ≤ i) {p : ℕ}
    (hp : p / 2 = i) (hpn : p ≤ n) (hall : ∀ j, j ≤ n → j / 2 = i → compar (m j) (m p) ≤ 0)
    (hlt : compar (m i) (m p) ≤ 0) : HeapBut compar lo n p (swap m i p) := by
  have hne : p ≠ i := by omega
  have hati : swap m i p i = m p := if_pos rfl
  have hatp : swap m i p p = m i := by rw [swap, exchange, if_neg hne, if_pos rfl]
  have hat {k : ℕ} (h1 : k ≠ i) (h2 : k ≠ p) : swap m i p k = m k := by
    rw [swap, exchange, if_neg h1, if_neg h2]
  constructor
  · intro j h2 hjn hjlo hjp
    by_cases hji : j / 2 = i
    · rw [hji, hati]
      by_cases hjp2 : j = p
      · rw [hjp2, hatp]
        exact hlt
      · rw [hat (by omega) hjp2]
        exact hall j hjn hji
    · rw [hat hji hjp]
      by_cases hj : j = i
      · rw [hj, hati]
        exact h.grand p hpn hp (hj ▸ hjlo)
      · rw [hat hj fun hx => hji (hx ▸ hp)]
        exact h.others j h2 hjn hjlo hji
  · intro j hjn hjp _
    rw [hp, hati, hat (by omega) (by omega), ← hjp]
    exact h.others j (by omega) hjn (by omega) (by omega)

theorem heap_spec (hc : Compares compar) (hN : n ≤ N) (hn : n < 2 ^ 31) (hlo : 1 ≤ lo) {fuel : ℕ} :
    ∀ {i : ℕ} {m : ℕ → α}, lo ≤ i → i ≤ n → n < fuel + i → HeapBut compar lo n i m →
      ∃ m2, heap compar N n fuel i m = some m2 ∧ Heap compar lo n m2 ∧ Rearranged 1 n m m2 := by
  induction fuel with
  | zero =>
    intro i m _ hin hfuel _
    omega
  | succ fuel ih =>
    intro i m hi hin hfuel h
    have hmod : i * 2 % 2 ^ 32 = i * 2 := Nat.mod_eq_of_lt (by omega)
    unfold heap
    dsimp only
    rw [hmod]
    by_cases hend : n < i * 2
    · rw [if_pos hend]
      exact ⟨m, rfl, fun j h2 hj hjlo => h.others j h2 hj hjlo (by omega), Rearranged.refl 1 n m⟩
    obtain ⟨hp, hpn, hall⟩ := child_spec (m := m) hc (not_lt.mp hend)
    rw [if_neg hend, if_pos (by omega)]
    by_cases hle : compar (m (child compar n m (i * 2))) (m i) ≤ 0
    · rw [if_pos hle]
      refine ⟨m, rfl, fun j h2 hj hjlo => ?_, Rearranged.refl 1 n m⟩
      by_cases hji : j / 2 = i
      · exact hji ▸ hc.trans (hall j hj hji) (hji ▸ hle)
      · exact h.others j h2 hj hjlo hji
    rw [if_neg hle]
    obtain ⟨m2, hrun, hheap, hper⟩ := ih (by omega) hpn (by omega)
      (h.sink hlo hi hp hpn hall (hc.le_of_not_le hle))
    exact ⟨m2, hrun, hheap, (Rearranged.exchange (by omega) (by omega)).trans hper⟩

/-! ## The loops -/

theorem build_spec (hc : Compares compar) (hn : n < 2 ^ 31) :
    ∀ {l : ℕ} {m : ℕ → α}, l ≤ n / 2 → Heap compar (l + 1) n m →
      ∃ m2, build compar n n l m = some m2 ∧ Heap compar 1 n m2 ∧ Rearranged 1 n m m2 := by
  intro l
  induction l with
  | zero => exact fun _ h => ⟨_, rfl, h, Rearranged.refl 1 n _⟩
  | succ l ih =>
    intro m hl h
    have hbut : HeapBut compar (l + 1) n (l + 1) m :=
      ⟨fun j h2 hj hlo hne => h j h2 hj (by omega), fun j _ _ hlo => by omega⟩
    obtain ⟨m2, hrun, hheap, hper⟩ :=
      heap_spec hc le_rfl hn (by omega) le_rfl (by omega) (by omega : n < n + (l + 1)) hbut
    obtain ⟨m3, hrun3, hheap3, hper3⟩ := ih (by omega) hheap
    refine ⟨m3, ?_, hheap3, hper.trans hper3⟩
    rw [build, hrun, Option.bind_some, hrun3]

theorem Heap.root (hc : Compares compar) (h : Heap compar 1 n m) (k : ℕ) (h1 : 1 ≤ k) (hk : k ≤ n) :
    compar (m k) (m 1) ≤ 0 := by
  induction k using Nat.strongRecOn with
  | ind k ih =>
    by_cases hone : k = 1
    · exact hone ▸ hc.refl _
    · exact hc.trans (h k (by omega) hk (by omega)) (ih (k / 2) (by omega) (by omega) (by omega))

/-- The second loop: the elements above `n` are in their place. -/
structure Draining (compar : α → α → Int) (N n : ℕ) (m : ℕ → α) : Prop where
  heap : Heap compar 1 n m
  sorted : Sorted compar (n + 1) N m
  below : ∀ j, n < j → j ≤ N → ∀ i, 1 ≤ i → i ≤ n → compar (m i) (m j) ≤ 0

theorem drain_spec (hc : Compares compar) (hN : N < 2 ^ 31) :
    ∀ {n : ℕ} {m : ℕ → α}, n ≤ N → Draining compar N n m →
      ∃ m2, drain compar N N n m = some m2 ∧ Sorted compar 1 N m2 ∧ Rearranged 1 N m m2 := by
  intro n
  induction n with
  | zero => exact fun _ h => ⟨_, rfl, h.sorted, Rearranged.refl 1 N _⟩
  | succ n ih =>
    intro m hn h
    unfold drain
    by_cases hone : 1 < n + 1
    · rw [if_pos hone, if_pos hn]
      have hex : Rearranged 1 (n + 1) m (swap m 1 (n + 1)) := Rearranged.exchange (by omega) (by omega)
      have hat {k : ℕ} (h1 : k ≠ 1) (h2 : k ≠ n + 1) : swap m 1 (n + 1) k = m k := by
        rw [swap, exchange, if_neg h1, if_neg h2]
      have hlast : swap m 1 (n + 1) (n + 1) = m 1 := by
        rw [swap, exchange, if_neg (by omega), if_pos rfl]
      have hbut : HeapBut compar 1 n 1 (swap m 1 (n + 1)) := by
        refine ⟨fun j h2 hj hlo hne => ?_, fun j _ _ hlo => by omega⟩
        rw [hat (by omega) (by omega), hat hne (by omega)]
        exact h.heap j h2 (by omega) hlo
      obtain ⟨m2, hrun, hheap, hper⟩ :=
        heap_spec hc (by omega : n ≤ N) (by omega) le_rfl le_rfl (by omega)
          (by omega : n < N + 1) hbut
      have hall := hex.trans (hper.mono le_rfl (by omega))
      have htail {k : ℕ} (hk : n + 1 < k) : m2 k = m k := hall.outside (by omega)
      have hroot : m2 (n + 1) = m 1 := by rw [hper.outside (by omega), hlast]
      have hmax := hall.all (P := fun x => compar x (m 1) ≤ 0) (h.heap.root hc)
      have hbelow : ∀ j, n < j → j ≤ N → ∀ i, 1 ≤ i → i ≤ n → compar (m2 i) (m2 j) ≤ 0 := by
        intro j hj hjN i h1 hi
        by_cases hjn : j = n + 1
        · rw [hjn, hroot]
          exact hmax i h1 (by omega)
        · rw [htail (by omega : n + 1 < j)]
          exact hall.all (P := fun x => compar x (m j) ≤ 0) (h.below j (by omega) hjN) i h1 (by omega)
      have hsorted : Sorted compar (n + 1) N m2 := by
        intro i j hi hij hj
        rw [htail (by omega : n + 1 < j)]
        by_cases hin : i = n + 1
        · rw [hin, hroot]
          exact h.below j (by omega) hj 1 le_rfl (by omega)
        · rw [htail (by omega)]
          exact h.sorted i j (by omega) hij hj
      obtain ⟨m3, hrun3, hs3, hper3⟩ := ih (by omega) ⟨hheap, hsorted, hbelow⟩
      refine ⟨m3, ?_, hs3, (hall.mono le_rfl hn).trans hper3⟩
      rw [hrun, Option.bind_some, hrun3]
    · rw [if_neg hone]
      refine ⟨m, rfl, fun i j hi hij hj => ?_, Rearranged.refl 1 N m⟩
      by_cases hin : i = 1
      · exact hin ▸ h.below j (by omega) hj 1 le_rfl (by omega)
      · exact h.sorted i j (by omega) hij hj

/-! ## The indexes wrap -/

/-- An array with one element above the others. -/
def peak (k : ℕ) : Int := if k = 2 ^ 31 then 1 else 0

theorem heap_wrap (hn : 2 ^ 31 ≤ n) (fuel : ℕ) : heap (· - ·) n n fuel (2 ^ 30) peak = none := by
  obtain _ | fuel := fuel
  · rfl
  have hzero (m : ℕ → Int) : heap (· - ·) n n fuel (2 ^ 31) m = none := by
    obtain _ | fuel := fuel
    · rfl
    · unfold heap
      dsimp only
      rw [if_neg (by omega), if_neg (by omega)]
  have hchild : child (· - ·) n peak (2 ^ 31) = 2 ^ 31 := by
    unfold child
    exact if_neg fun h => absurd h.2 (by decide)
  unfold heap
  dsimp only
  rw [if_neg (by omega), show 2 ^ 30 * 2 % 2 ^ 32 = 2 ^ 31 from rfl, hchild, hzero,
    if_neg (by decide : ¬peak (2 ^ 31) - peak (2 ^ 30) ≤ 0), ite_self]

theorem build_wrap (hn : 2 ^ 31 ≤ n) (hlt : n < 2 ^ 32) (fuel : ℕ) :
    ∀ {l : ℕ}, 2 ^ 30 ≤ l → l ≤ n / 2 → build (· - ·) n fuel l peak = none := by
  intro l h30
  induction l, h30 using Nat.le_induction with
  | base =>
    obtain ⟨k, hk⟩ : ∃ k, 2 ^ 30 = k + 1 := ⟨2 ^ 30 - 1, rfl⟩
    intro _
    rw [hk, build, ← hk, heap_wrap hn]
    rfl
  | succ l hl ih =>
    intro hln
    have hmod : (l + 1) * 2 % 2 ^ 32 = (l + 1) * 2 := Nat.mod_eq_of_lt (by omega)
    have hflat {k : ℕ} (hk : k ≠ 2 ^ 31) : peak k = 0 := if_neg hk
    have hchild : child (· - ·) n peak ((l + 1) * 2) = (l + 1) * 2 := by
      refine if_neg fun h => ?_
      rw [hflat (by omega), hflat (by omega)] at h
      exact absurd h.2 (by decide)
    have hflat2 : peak ((l + 1) * 2) - peak (l + 1) ≤ 0 := by
      rw [hflat (by omega), hflat (by omega)]
      decide
    obtain _ | fuel := fuel
    · rfl
    rw [build, heap]
    dsimp only
    rw [hmod, if_neg (by omega), hchild, if_pos hflat2, if_pos (by omega), Option.bind_some]
    exact ih (by omega)

theorem not_sorts (hn : 2 ^ 31 ≤ n) (hlt : n < 2 ^ 32) : ¬Sorts n := by
  intro h
  have hc : Compares (fun a b : Int => a - b) := ⟨by omega, by omega⟩
  obtain ⟨fuel, m2, hrun, _⟩ := h Int (· - ·) 1 peak hc one_pos
  rw [heapsort, if_neg (by omega), if_neg one_ne_zero,
    build_wrap hn hlt fuel (by omega) le_rfl] at hrun
  exact absurd hrun nofun

/-- **`heapsort` sorts the arrays of fewer than `2 ^ 31` elements.** Kind: P -/
theorem heapsort_sorts_iff (nmemb : BitVec 32) : Sorts nmemb.toNat ↔ nmemb.toNat < 2 ^ 31 := by
  constructor
  · exact fun h => not_le.mp fun hle => not_sorts hle nmemb.isLt h
  · intro hn α compar size m hc hsize
    by_cases hone : nmemb.toNat ≤ 1
    · exact ⟨0, m, if_pos hone, Rearranged.refl _ _ m, fun i j _ _ _ => by omega⟩
    obtain ⟨m2, hrun, hheap, hper⟩ := build_spec (m := m) hc hn le_rfl fun j _ _ _ => by omega
    obtain ⟨m3, hrun3, hsorted, hper3⟩ :=
      drain_spec hc hn le_rfl ⟨hheap, fun i j _ _ _ => by omega, fun j _ _ => by omega⟩
    refine ⟨nmemb.toNat, m3, ?_, hper.trans hper3, hsorted⟩
    rw [heapsort, if_neg hone, if_neg hsize.ne', hrun, Option.bind_some, hrun3]
    rfl

/-- Of `2 ^ 31` elements the index 0 is compared, where the first loop has made the element `2 ^ 30`
sink below its child. -/
theorem not_sorts_two_pow : ¬Sorts (2 ^ 31) := not_sorts le_rfl (by decide)

end Bsd386.Libc.Sort
