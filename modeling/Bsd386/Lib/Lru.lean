import Mathlib.Data.List.Chain
import Mathlib.Data.List.Nodup

/-!
# Circular lists in least recently used order

A ring is a `next` function and a pointer `last` to its end, so that `next last` is its head.
`Ring next last l` says that the ring holds exactly the elements of `l`, in that order.

* `Ring.rotate`, `Ring.moveToFront`: the two ways an element becomes the head.
-/

namespace Bsd386.Lib.Lru

open Function List

variable {α : Type}

/-- The ring from `last` holds the elements of `l`, each once, in order. -/
structure Ring (next : α → α) (last : α) (l : List α) : Prop where
  chain : (last :: l).IsChain (next · = ·)
  getLast : l.getLast? = some last
  nodup : l.Nodup
  complete : ∀ x, x ∈ l

/-- Where a search ended: at an element with the property, or at the last element without having
met one. `prev` is the element before it. -/
inductive Found (α : Type) where
  | hit (prev cur : α)
  | miss (prev cur : α)
deriving DecidableEq

/-- `do { prev = cur; cur = next(cur); if (p(cur)) goto found; } while (cur != last)`. -/
def search [DecidableEq α] (next : α → α) (last : α) (p : α → Bool) : ℕ → α → Option (Found α)
  | 0, _ => none
  | n + 1, cur =>
    if p (next cur) then some (.hit cur (next cur))
    else if next cur = last then some (.miss cur (next cur))
    else search next last p n (next cur)

/-- Unlink `cs`, whose predecessor is `lcs`, and link it in behind `last`. -/
def relink [DecidableEq α] (next : α → α) (last lcs cs : α) : α → α :=
  let next₁ := update next lcs (next cs)
  let next₂ := update next₁ cs (next₁ last)
  update next₂ last cs

variable {next next' : α → α} {last lcs cs : α} {l pre post : List α}

theorem isChain_of_agree (h : l.IsChain (next · = ·)) (hl : l.Nodup) {z : α}
    (hz : l.getLast? = some z) (hagree : ∀ a ∈ l, a ≠ z → next' a = next a) :
    l.IsChain (next' · = ·) := by
  rw [isChain_iff_forall_rel_of_append_cons_cons] at h ⊢
  intro a b l1 l2 heq
  subst heq
  have hzmem : z ∈ b :: l2 := by
    rw [getLast?_append, getLast?_cons_cons] at hz
    exact mem_of_getLast? (by simpa using hz)
  have haz : a ≠ z := by
    rintro rfl
    exact (nodup_cons.mp (nodup_append.mp hl).2.1).1 hzmem
  rw [hagree a (by simp) haz]
  exact h rfl

/-- **The search.** From an element `c` without the property whose successors `l` end in `last`,
the loop stops within the length of `l`: at the first successor with the property, or at `last`
when no successor has it. -/
theorem search_spec [DecidableEq α] (p : α → Bool) {c : α} {n : ℕ}
    (hchain : (c :: l).IsChain (next · = ·)) (hlast : l.getLast? = some last) (hl : l.Nodup)
    (hn : l.length ≤ n) (hc : p c = false) :
    (∃ pre lcs cs post, search next last p n c = some (.hit lcs cs) ∧
        c :: l = pre ++ lcs :: cs :: post ∧ p cs = true ∧ ∀ x ∈ pre ++ [lcs], p x = false) ∨
      ∃ pre lcs, search next last p n c = some (.miss lcs last) ∧
        c :: l = pre ++ [lcs, last] ∧ ∀ x ∈ c :: l, p x = false := by
  induction l generalizing c n with
  | nil => cases hlast
  | cons b l ih =>
    obtain ⟨n, rfl⟩ : ∃ m, n = m + 1 := ⟨n - 1, by simp only [length_cons] at hn; omega⟩
    obtain ⟨hcb, hchain⟩ := isChain_cons_cons.mp hchain
    simp only [search, hcb]
    by_cases hp : p b = true
    · rw [if_pos hp]
      exact .inl ⟨[], c, b, l, rfl, rfl, hp, by simpa using hc⟩
    rw [if_neg hp]
    have hp' : p b = false := by simpa using hp
    by_cases hb : b = last
    · -- the end of the ring: nothing can follow it
      subst hb
      obtain rfl : l = [] := by
        rcases eq_nil_or_concat l with h | ⟨l', x, rfl⟩
        · exact h
        · have hx : x = b := by simpa [getLast?_cons] using hlast
          exact absurd (by simp [hx]) (nodup_cons.mp hl).1
      rw [if_pos rfl]
      exact .inr ⟨[], c, rfl, rfl, by simp [hc, hp']⟩
    · rw [if_neg hb]
      have hlast' : l.getLast? = some last := by
        cases l with
        | nil => exact absurd (by simpa using hlast) hb
        | cons x l => rwa [getLast?_cons_cons] at hlast
      have hn' : l.length ≤ n := by simpa using hn
      rcases ih hchain hlast' (nodup_cons.mp hl).2 hn' hp' with
        ⟨pre, lcs, cs, post, h1, h2, h3, h4⟩ | ⟨pre, lcs, h1, h2, h3⟩
      · refine .inl ⟨c :: pre, lcs, cs, post, h1, by rw [h2]; rfl, h3, ?_⟩
        exact forall_mem_cons.mpr ⟨hc, h4⟩
      · refine .inr ⟨c :: pre, lcs, h1, by rw [h2]; rfl, ?_⟩
        exact forall_mem_cons.mpr ⟨hc, h3⟩

theorem Ring.rotate (h : Ring next last (pre ++ [lcs, last])) :
    Ring next lcs (last :: (pre ++ [lcs])) := by
  obtain ⟨hchain, -, hnodup, hcomplete⟩ := h
  have hsplit : last :: (pre ++ [lcs, last]) = (last :: (pre ++ [lcs])) ++ [last] := by simp
  have hlink : next lcs = last := by
    rw [← cons_append] at hchain
    exact (isChain_append_cons_cons.mp hchain).2.1
  refine ⟨?_, ?_, ?_, ?_⟩
  · rw [hsplit] at hchain
    exact isChain_cons_cons.mpr ⟨hlink, hchain.left_of_append⟩
  · simp [getLast?_cons]
  · have hperm : (pre ++ [lcs, last]).Perm (last :: (pre ++ [lcs])) := by
      rw [show pre ++ [lcs, last] = (pre ++ [lcs]) ++ [last] by simp]
      exact perm_append_singleton _ _
    exact hperm.nodup_iff.mp hnodup
  · intro x
    have hx := hcomplete x
    simp only [mem_append, mem_cons, not_mem_nil, or_false] at hx ⊢
    rcases hx with hx | hx | hx
    · exact .inr (.inl hx)
    · exact .inr (.inr hx)
    · exact .inl hx

theorem Ring.moveToFront [DecidableEq α] (h : Ring next last (pre ++ lcs :: cs :: post)) (hpost : post ≠ []) :
    Ring (relink next last lcs cs) last (cs :: (pre ++ lcs :: post)) := by
  obtain ⟨hchain, hlast, hnodup, hcomplete⟩ := h
  have hperm : (pre ++ lcs :: cs :: post).Perm (cs :: (pre ++ lcs :: post)) := by
    refine (perm_middle.trans ?_)
    refine (List.Perm.cons lcs perm_middle).trans ?_
    refine (List.Perm.swap cs lcs _).trans ?_
    exact List.Perm.cons cs perm_middle.symm
  have hpostLast : post.getLast? = some last := by
    obtain ⟨q, x, rfl⟩ : ∃ q x, post = q ++ [x] := by
      rcases eq_nil_or_concat post with h | ⟨q, x, h⟩
      · exact absurd h hpost
      · exact ⟨q, x, by simpa using h⟩
    simpa [getLast?_cons] using hlast
  have hmem : last ∈ post := mem_of_getLast? hpostLast
  have hnodup' := hperm.nodup_iff.mp hnodup
  obtain ⟨hcs, hrest⟩ := nodup_cons.mp hnodup'
  obtain ⟨-, hpostNodup, hdisj⟩ := nodup_append.mp hrest
  obtain ⟨hlcs, hpostNodup⟩ := nodup_cons.mp hpostNodup
  have hcsLast : cs ≠ last := by
    rintro rfl
    exact hcs (by simp [hmem])
  have hlcsLast : lcs ≠ last := by
    rintro rfl
    exact hlcs hmem
  have hlcsCs : lcs ≠ cs := by
    rintro rfl
    exact hcs (by simp)
  -- the three links that change, and the rest
  have hnLast : relink next last lcs cs last = cs := update_self ..
  have hnCs : relink next last lcs cs cs = next last := by
    simp only [relink]
    rw [update_of_ne hcsLast, update_self,
      update_of_ne hlcsLast.symm]
  have hnLcs : relink next last lcs cs lcs = next cs := by
    simp only [relink]
    rw [update_of_ne hlcsLast, update_of_ne hlcsCs, update_self]
  have hnRest : ∀ a, a ≠ last → a ≠ cs → a ≠ lcs → relink next last lcs cs a = next a := by
    intro a h1 h2 h3
    simp only [relink]
    rw [update_of_ne h1, update_of_ne h2, update_of_ne h3]
  -- the old chain in three parts
  rw [← cons_append] at hchain
  obtain ⟨hfront, hlink, hback⟩ := isChain_append_cons_cons.mp hchain
  obtain ⟨b, post', rfl⟩ := exists_cons_of_ne_nil hpost
  obtain ⟨hcb, hback⟩ := isChain_cons_cons.mp hback
  have hpreNodup : (pre ++ [lcs]).Nodup := by
    refine hrest.sublist ?_
    simp
  have hpreNe : ∀ a ∈ pre ++ [lcs], a ≠ last ∧ a ≠ cs := by
    intro a ha
    simp only [mem_append, mem_singleton] at ha
    refine ⟨?_, ?_⟩
    · rintro rfl
      rcases ha with ha | rfl
      · exact hdisj a ha a (by simp [hmem]) rfl
      · exact hlcsLast rfl
    · rintro rfl
      rcases ha with ha | rfl
      · exact hcs (by simp [ha])
      · exact hlcsCs rfl
  refine ⟨?_, ?_, hnodup', fun x => hperm.mem_iff.mp (hcomplete x)⟩
  · refine isChain_cons_cons.mpr ⟨hnLast, ?_⟩
    have hpreChain : (pre ++ [lcs]).IsChain (relink next last lcs cs · = ·) := by
      refine isChain_of_agree (isChain_of_isChain_cons hfront) hpreNodup (z := lcs)
        (by simp) ?_
      intro a ha hne
      exact hnRest a (hpreNe a ha).1 (hpreNe a ha).2 hne
    have hpostChain : (b :: post').IsChain (relink next last lcs cs · = ·) := by
      refine isChain_of_agree hback hpostNodup hpostLast ?_
      intro a ha hne
      refine hnRest a hne ?_ ?_
      · rintro rfl
        exact hcs (by simp only [mem_append, mem_cons] at ha ⊢; tauto)
      · rintro rfl
        exact hlcs ha
    rw [show pre ++ lcs :: b :: post' = (pre ++ [lcs]) ++ (b :: post') by simp]
    refine (hpreChain.append hpostChain ?_).cons ?_
    · intro x hx y hy
      obtain rfl : lcs = x := by simpa using hx
      obtain rfl : b = y := by simpa using hy
      rw [hnLcs, hcb]
    · intro y hy
      rw [hnCs]
      refine hfront.rel_head? ?_
      cases pre with
      | nil => simpa using hy
      | cons a pre => simpa using hy
  · rw [← cons_append, getLast?_append]
    simp [hpostLast]

end Bsd386.Lib.Lru
