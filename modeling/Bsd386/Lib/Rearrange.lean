import Mathlib.Data.Fintype.Basic

/-!
# Arrays put in order in place

An array is a function from indexes; the elements that an algorithm may move are those with an index
in `lo ≤ i ≤ hi`. A sequence of exchanges of them is a permutation of the indexes (`Rearranged`), and
an order is a comparison function with the sign rule of `qsort` (`Compares`).
-/

namespace Bsd386.Lib.Rearrange

variable {α : Type}

/-- A comparison function is a total preorder. -/
structure Compares (compar : α → α → Int) : Prop where
  flip {a b : α} : compar a b < 0 ↔ 0 < compar b a
  trans {a b c : α} : compar a b ≤ 0 → compar b c ≤ 0 → compar a c ≤ 0

theorem Compares.le_of_not_lt {compar : α → α → Int} (h : Compares compar) {a b : α}
    (hab : ¬compar a b < 0) : compar b a ≤ 0 :=
  not_lt.mp fun hlt => hab (h.flip.mpr hlt)

theorem Compares.le_of_not_le {compar : α → α → Int} (h : Compares compar) {a b : α}
    (hab : ¬compar a b ≤ 0) : compar b a ≤ 0 :=
  le_of_lt (h.flip.mpr (not_le.mp hab))

theorem Compares.refl {compar : α → α → Int} (h : Compares compar) (a : α) : compar a a ≤ 0 :=
  not_lt.mp fun hlt => (h.flip.mpr hlt).asymm hlt

/-- The elements from `i` to `j` do not decrease. -/
def Sorted (compar : α → α → Int) (lo hi : ℕ) (m : ℕ → α) : Prop :=
  ∀ i j, lo ≤ i → i < j → j ≤ hi → compar (m i) (m j) ≤ 0

/-- The elements `a` and `b` are exchanged. -/
def exchange (m : ℕ → α) (a b : ℕ) : ℕ → α :=
  fun k => if k = a then m b else if k = b then m a else m k

/-- The elements from `lo` to `hi` are permuted. -/
def Rearranged (lo hi : ℕ) (m m2 : ℕ → α) : Prop :=
  ∃ f : Equiv.Perm ℕ, (∀ k, ¬(lo ≤ k ∧ k ≤ hi) → f k = k) ∧ m2 = m ∘ f

variable {lo hi : ℕ} {m m2 m3 : ℕ → α}

theorem Rearranged.refl (lo hi : ℕ) (m : ℕ → α) : Rearranged lo hi m m :=
  ⟨Equiv.refl ℕ, fun _ _ => rfl, rfl⟩

theorem Rearranged.trans (h1 : Rearranged lo hi m m2) (h2 : Rearranged lo hi m2 m3) :
    Rearranged lo hi m m3 := by
  obtain ⟨f, hf, rfl⟩ := h1
  obtain ⟨g, hg, rfl⟩ := h2
  refine ⟨g.trans f, fun k hk => ?_, rfl⟩
  rw [Equiv.trans_apply, hg k hk, hf k hk]

theorem Rearranged.mono {lo2 hi2 : ℕ} (h : Rearranged lo hi m m2) (hlo : lo2 ≤ lo) (hhi : hi ≤ hi2) :
    Rearranged lo2 hi2 m m2 := by
  obtain ⟨f, hf, hm⟩ := h
  exact ⟨f, fun k hk => hf k fun hin => hk ⟨hlo.trans hin.1, hin.2.trans hhi⟩, hm⟩

theorem Rearranged.exchange {a b : ℕ} (ha : lo ≤ a ∧ a ≤ hi) (hb : lo ≤ b ∧ b ≤ hi) :
    Rearranged lo hi m (exchange m a b) := by
  refine ⟨Equiv.swap a b, fun k hk => ?_, funext fun k => ?_⟩
  · exact Equiv.swap_apply_of_ne_of_ne (fun h => hk (h ▸ ha)) fun h => hk (h ▸ hb)
  · rw [Function.comp_apply, Equiv.swap_apply_def, Rearrange.exchange]
    split_ifs <;> rfl

theorem Rearranged.outside (h : Rearranged lo hi m m2) {k : ℕ} (hk : ¬(lo ≤ k ∧ k ≤ hi)) :
    m2 k = m k := by
  obtain ⟨f, hf, rfl⟩ := h
  rw [Function.comp_apply, hf k hk]

theorem Rearranged.all {P : α → Prop} (h : Rearranged lo hi m m2)
    (hall : ∀ k, lo ≤ k → k ≤ hi → P (m k)) : ∀ k, lo ≤ k → k ≤ hi → P (m2 k) := by
  obtain ⟨f, hf, rfl⟩ := h
  intro k h1 h2
  have hin : lo ≤ f k ∧ f k ≤ hi := by
    by_contra hout
    have hfix := f.injective (hf _ hout)
    exact hout (hfix.symm ▸ ⟨h1, h2⟩)
  exact hall _ hin.1 hin.2

end Bsd386.Lib.Rearrange
