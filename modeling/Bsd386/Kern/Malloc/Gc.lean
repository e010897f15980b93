import Bsd386.Kern.Malloc.Blocks

/-!
# Garbage collection

`bucket_gc` takes the list behind its first chunks, drops the chunks of the clusters that are free, puts the
others into a new order in front of the list, and gives the free clusters back. The two lists under way are
`Built`.
-/

namespace Bsd386.Kern.Malloc

open Function List Lib.Linked Kern
open Kern (elmOf highwatOf Lists)

variable {k k' : Kern} {p q i j n a b : ℕ} {live : Finset ℕ} {req : ℕ → Block} {fl : ℕ → List ℕ} {l : List ℕ}

/-! ## The list that is cleaned -/

theorem skip_eq {word : ℕ → ℕ} {pre tail : List ℕ} (h : Linked (fun a => ptr (word a)) (ptr p) (pre ++ a :: tail)) :
    Kern.skip word (pre.length + 1) p = a := by
  induction pre generalizing p with
  | nil => exact (eq_of_ptr h.1).1
  | cons y pre ih =>
    obtain ⟨hy, h⟩ := h
    rw [length_cons, skip, (eq_of_ptr hy).1]
    exact ih h

theorem count_eq (k : Kern) (usage : ℕ → Kmemusage) (l : List ℕ) (p : ℕ) : k.count usage l p =
    { usage p with kuGccnt := (usage p).kuGccnt + l.countP fun a => decide (k.btokup a = p) } := by
  induction l generalizing usage with
  | nil => rfl
  | cons a l ih =>
    rw [Kern.count, ih]
    by_cases hp : k.btokup a = p
    · subst hp
      rw [update_self, countP_cons_of_pos (by rw [decide_eq_true_eq])]
      simp only [Kmemusage.mk.injEq, true_and]
      omega
    · rw [update_of_ne fun heq => hp heq.symm, countP_cons_of_neg (by rwa [decide_eq_true_eq])]

/-! ## The two lists -/

namespace Kern.Lists

variable {c : Lists} {A B post : List ℕ} {v : ℕ}

def next (c : Lists) (a : ℕ) : Option ℕ := ptr (c.word a)

theorem store_eq (c : Lists) (v : ℕ) : (c.store v).next = relinkNext c.prev c.next (ptr v) ∧
    ptr (c.store v).head = relinkHead c.prev (ptr c.head) (ptr v) ∧
    c.store v = { c with head := (c.store v).head, word := (c.store v).word } := by
  obtain ⟨word, head, head2, prev, prev2⟩ := c
  cases prev with
  | none => exact ⟨rfl, rfl, rfl⟩
  | some y => exact ⟨Function.comp_update ptr word y v, rfl, rfl⟩

theorem store2_eq (c : Lists) (v : ℕ) : (c.store2 v).next = relinkNext c.prev2 c.next (ptr v) ∧
    ptr (c.store2 v).head2 = relinkHead c.prev2 (ptr c.head2) (ptr v) ∧
    c.store2 v = { c with head2 := (c.store2 v).head2, word := (c.store2 v).word } := by
  obtain ⟨word, head, head2, prev, prev2⟩ := c
  cases prev2 with
  | none => exact ⟨rfl, rfl, rfl⟩
  | some y => exact ⟨Function.comp_update ptr word y v, rfl, rfl⟩

theorem store_word (hprev : c.prev = A.getLast?) (ha : a ∉ A) : (c.store v).word a = c.word a := by
  obtain ⟨word, head, head2, prev, prev2⟩ := c
  cases prev with
  | none => rfl
  | some y => exact update_of_ne (ne_of_mem_of_not_mem (mem_of_getLast? hprev.symm) ha).symm v word

theorem store2_word (hprev : c.prev2 = B.getLast?) (ha : a ∉ B) : (c.store2 v).word a = c.word a := by
  obtain ⟨word, head, head2, prev, prev2⟩ := c
  cases prev2 with
  | none => rfl
  | some y => exact update_of_ne (ne_of_mem_of_not_mem (mem_of_getLast? hprev.symm) ha).symm v word

/-- The lists under way are `A` and `B`. Source: bucket_gc -/
structure Built (c : Lists) (A B : List ℕ) : Prop where
  fst : Open c.next (ptr c.head) A
  snd : Open c.next (ptr c.head2) B
  prev : c.prev = A.getLast?
  prev2 : c.prev2 = B.getLast?
  empty : B = [] → c.head2 = 0
  nodup : (A ++ B).Nodup

namespace Built

theorem store (h : Built c A B) (v : ℕ) :
    Built (c.store v) A B ∧ lastLink (c.store v).next (ptr (c.store v).head) A = ptr v := by
  obtain ⟨hA, -, hdisj⟩ := nodup_append.mp h.nodup
  obtain ⟨hnext, hhead, heq⟩ := c.store_eq v
  obtain ⟨hopen, hlast⟩ := h.fst.store hA (ptr v)
  rw [← h.prev, ← hnext, ← hhead] at hopen hlast
  refine ⟨⟨hopen, ?_, by rw [heq]; exact h.prev, by rw [heq]; exact h.prev2, by rw [heq]; exact h.empty, h.nodup⟩,
    hlast⟩
  have hhead2 : (c.store v).head2 = c.head2 := by rw [heq]
  rw [hhead2]
  refine h.snd.congr (fun x hx _ => ?_) (nodup_append.mp h.nodup).2.1
  rw [next, store_word h.prev fun hxA => hdisj x hxA x hx rfl, next]

theorem store2 (h : Built c A B) (v : ℕ) :
    Open (c.store2 v).next (ptr (c.store2 v).head) A ∧ Open (c.store2 v).next (ptr (c.store2 v).head2) B ∧
      lastLink (c.store2 v).next (ptr (c.store2 v).head) A = lastLink c.next (ptr c.head) A ∧
      lastLink (c.store2 v).next (ptr (c.store2 v).head2) B = ptr v := by
  obtain ⟨hA, hB, hdisj⟩ := nodup_append.mp h.nodup
  obtain ⟨hnext, hhead, heq⟩ := c.store2_eq v
  obtain ⟨hopen, hlast⟩ := h.snd.store hB (ptr v)
  rw [← h.prev2, ← hnext, ← hhead] at hopen hlast
  have hsame : ∀ x ∈ A, (c.store2 v).next x = c.next x := by
    intro x hx
    rw [next, store2_word h.prev2 fun hxB => hdisj x hx x hxB rfl, next]
  have hhead' : (c.store2 v).head = c.head := by rw [heq]
  rw [hhead']
  refine ⟨h.fst.congr (fun x hx _ => hsame x hx) hA, hopen, ?_, hlast⟩
  rw [lastLink, lastLink]
  cases hA' : A.getLast? with
  | none => rfl
  | some y => exact hsame y (mem_of_getLast? hA')

theorem push (h : Built c A B) (ha : a ∉ A ++ B) (hpos : 0 < a) :
    Built { c.store a with prev := some a } (A ++ [a]) B := by
  obtain ⟨h1, hlast⟩ := h.store a
  rw [ptr_of_pos hpos] at hlast
  refine ⟨h1.fst.snoc hlast, h1.snd, getLast?_concat.symm, h1.prev2, h1.empty, ?_⟩
  rw [append_assoc, singleton_append, nodup_middle]
  exact nodup_cons.mpr ⟨ha, h.nodup⟩

theorem push2 (h : Built c A B) (ha : a ∉ A ++ B) (hpos : 0 < a) :
    Built { c.store2 a with prev2 := some a } A (B ++ [a]) := by
  obtain ⟨hfst, hsnd, -, hlast⟩ := h.store2 a
  obtain ⟨-, -, heq⟩ := c.store2_eq a
  have hprev : (c.store2 a).prev = A.getLast? := by
    rw [heq]
    exact h.prev
  rw [ptr_of_pos hpos] at hlast
  refine ⟨hfst, hsnd.snoc hlast, hprev, getLast?_concat.symm, fun hnil => ?_, ?_⟩
  · exact absurd (append_eq_nil_iff.mp hnil).2 (cons_ne_nil a [])
  · rw [← append_assoc, nodup_middle, append_nil]
    exact nodup_cons.mpr ⟨ha, h.nodup⟩

theorem relink_spec (g : ℕ → ℕ) (e : ℕ) (h : Built c A B) (hl : Linked c.next (ptr q) l) (hn : l.length < n)
    (hdisj : ∀ x ∈ l, x ∉ A ++ B) :
    ∃ c', relink g e n c q = some c' ∧
      Built c' (A ++ l.filter fun x => decide (g x ≠ e ∧ ¬ e / 2 < g x))
        (B ++ l.filter fun x => decide (g x ≠ e ∧ e / 2 < g x)) ∧
      ∀ x, x ∉ A ++ B → x ∉ l → c'.word x = c.word x := by
  induction l generalizing c A B q n with
  | nil =>
    obtain ⟨n, rfl⟩ : ∃ m, n = m + 1 := ⟨n - 1, by rw [length_nil] at hn; omega⟩
    refine ⟨c, by rw [relink, if_pos (ptr_eq_none.mp hl)], ?_, fun _ _ _ => rfl⟩
    rw [filter_nil, filter_nil, append_nil, append_nil]
    exact h
  | cons y l ih =>
    obtain ⟨n, rfl⟩ : ∃ m, n = m + 1 := ⟨n - 1, by rw [length_cons] at hn; omega⟩
    obtain ⟨hy, hnext⟩ := hl
    obtain ⟨rfl, hq⟩ := eq_of_ptr hy
    have hnodup : (q :: l).Nodup := Linked.nodup (show Linked c.next (some q) (q :: l) from ⟨rfl, hnext⟩)
    obtain ⟨hql, -⟩ := nodup_cons.mp hnodup
    have hqAB := hdisj q mem_cons_self
    have hlen : l.length < n := by
      rw [length_cons] at hn
      omega
    have hA : ∀ x, x ∉ A ++ B → x ∉ A := fun x hx hxA => hx (mem_append_left B hxA)
    have hB : ∀ x, x ∉ A ++ B → x ∉ B := fun x hx hxB => hx (mem_append_right A hxB)
    -- the rest of the list, where the words outside the two lists are the same
    have hrest : ∀ c1 : Lists, (∀ x, x ∉ A ++ B → c1.word x = c.word x) →
        Linked c1.next (ptr (c1.word q)) l := by
      intro c1 hword
      rw [hword q hqAB]
      refine hnext.congr fun x hx => ?_
      rw [next, hword x (hdisj x (mem_cons_of_mem q hx)), next]
    rw [relink, if_neg hq]
    by_cases hfull : g q = e
    · obtain ⟨h1, -⟩ := h.store (c.word q)
      have hword : ∀ x, x ∉ A ++ B → (c.store (c.word q)).word x = c.word x := fun x hx => by
        rw [store_word h.prev (hA x hx)]
      obtain ⟨c', hc', hbuilt, hsame⟩ := ih h1 (hrest _ hword) hlen fun x hx => hdisj x (mem_cons_of_mem q hx)
      refine ⟨c', by rw [if_pos hfull]; exact hc', ?_, fun x hx hxl => ?_⟩
      · rw [filter_cons_of_neg (by simp [hfull]), filter_cons_of_neg (by simp [hfull])]
        exact hbuilt
      · rw [hsame x hx fun hxl' => hxl (mem_cons_of_mem q hxl'), hword x hx]
    · by_cases hhalf : e / 2 < g q
      · have hword : ∀ x, x ∉ A ++ B → (c.store2 q).word x = c.word x := fun x hx => by
          rw [store2_word h.prev2 (hB x hx)]
        have hsplit : ∀ x, x ∉ A ++ (B ++ [q]) ↔ x ∉ A ++ B ∧ x ≠ q := fun x => by
          rw [← append_assoc, mem_append, mem_singleton, not_or]
        obtain ⟨c', hc', hbuilt, hsame⟩ := ih (h.push2 hqAB (Nat.pos_of_ne_zero hq))
          (hrest { c.store2 q with prev2 := some q } hword) hlen fun x hx => (hsplit x).mpr
            ⟨hdisj x (mem_cons_of_mem q hx), ne_of_mem_of_not_mem hx hql⟩
        refine ⟨c', by rw [if_neg hfull, if_pos hhalf]; exact hc', ?_, fun x hx hxl => ?_⟩
        · rw [filter_cons_of_neg (by simp [hhalf]), filter_cons_of_pos (by simp [hfull, hhalf]),
            append_cons]
          exact hbuilt
        · obtain ⟨hxq, hxl⟩ := not_or.mp fun hor => hxl (mem_cons.mpr hor)
          rw [hsame x ((hsplit x).mpr ⟨hx, hxq⟩) hxl, ← hword x hx]
      · have hword : ∀ x, x ∉ A ++ B → (c.store q).word x = c.word x := fun x hx => by
          rw [store_word h.prev (hA x hx)]
        have hsplit : ∀ x, x ∉ A ++ [q] ++ B ↔ x ∉ A ++ B ∧ x ≠ q := fun x => by
          rw [mem_append, mem_append, mem_append, mem_singleton]
          tauto
        obtain ⟨c', hc', hbuilt, hsame⟩ := ih (h.push hqAB (Nat.pos_of_ne_zero hq))
          (hrest { c.store q with prev := some q } hword) hlen fun x hx => (hsplit x).mpr
            ⟨hdisj x (mem_cons_of_mem q hx), ne_of_mem_of_not_mem hx hql⟩
        refine ⟨c', by rw [if_neg hfull, if_neg hhalf]; exact hc', ?_, fun x hx hxl => ?_⟩
        · rw [filter_cons_of_pos (by simp [hfull, hhalf]), filter_cons_of_neg (by simp [hhalf]),
            append_cons]
          exact hbuilt
        · obtain ⟨hxq, hxl⟩ := not_or.mp fun hor => hxl (mem_cons.mpr hor)
          rw [hsame x ((hsplit x).mpr ⟨hx, hxq⟩) hxl, ← hword x hx]

/-- **The second list** is placed behind the first one, and both in front of what is in the bucket. -/
theorem join (h : Built c A B) (hpost : Linked c.next (ptr v) post) (hdisj : ∀ x ∈ post, x ∉ A ++ B) :
    Linked (c.join v).next (ptr (c.join v).head) (A ++ (B ++ post)) ∧
      ∀ x, x ∉ A ++ B → (c.join v).word x = c.word x := by
  have hA : ∀ x, x ∉ A ++ B → x ∉ A := fun x hx hxA => hx (mem_append_left B hxA)
  have hB : ∀ x, x ∉ A ++ B → x ∉ B := fun x hx hxB => hx (mem_append_right A hxB)
  obtain ⟨h1, hlast1⟩ := h.store c.head2
  have hword1 : ∀ x, x ∉ A ++ B → (c.store c.head2).word x = c.word x := fun x hx => store_word h.prev (hA x hx)
  obtain ⟨c1, hc1⟩ : ∃ c1, c1 = c.store c.head2 := ⟨_, rfl⟩
  have hhead2 : c1.head2 = c.head2 := by
    obtain ⟨-, -, heq⟩ := c.store_eq c.head2
    rw [hc1, heq]
  rw [Lists.join, ← hc1]
  rw [← hc1] at h1 hlast1 hword1
  -- what is in the bucket stays where it is
  have hstay : ∀ c2 : Lists, (∀ x, x ∉ A ++ B → c2.word x = c.word x) → Linked c2.next (ptr v) post :=
    fun c2 hword => hpost.congr fun x hx => by rw [next, hword x (hdisj x hx), next]
  by_cases hzero : c.head2 = 0
  · have hnil : B = [] := by
      cases B with
      | nil => rfl
      | cons b B =>
        have hsnd := h.snd
        rw [hzero] at hsnd
        cases B with
        | nil => exact absurd hsnd nofun
        | cons b' B => exact absurd hsnd.1 nofun
    subst hnil
    obtain ⟨h2, hlast2⟩ := h1.store v
    have hword2 : ∀ x, x ∉ A ++ [] → (c1.store v).word x = c.word x := fun x hx => by
      rw [store_word h1.prev (hA x hx), hword1 x hx]
    rw [if_pos hzero]
    refine ⟨h2.fst.linked ?_, hword2⟩
    rw [hlast2]
    exact hstay _ hword2
  · have hnil : B ≠ [] := fun hnil => hzero (h.empty hnil)
    obtain ⟨hfst, hsnd, hlastA, hlastB⟩ := h1.store2 v
    have hword2 : ∀ x, x ∉ A ++ B → (c1.store2 v).word x = c.word x := fun x hx => by
      rw [store2_word h1.prev2 (hB x hx), hword1 x hx]
    have hhead : ptr (c1.store2 v).head2 = ptr c.head2 := by
      obtain ⟨-, hhead, -⟩ := c1.store2_eq v
      obtain ⟨y, hy⟩ := Option.ne_none_iff_exists'.mp fun hnone => hnil (getLast?_eq_none_iff.mp hnone)
      rw [hhead, h1.prev2, hy, relinkHead, hhead2]
    rw [if_neg hzero]
    refine ⟨hfst.linked ?_, hword2⟩
    rw [hlastA, hlast1, ← hhead]
    refine hsnd.linked ?_
    rw [hlastB]
    exact hstay _ hword2

end Built

end Kern.Lists

/-! ## The clusters that are given back -/

/-- The clusters below `n` that are counted as free. Source: bucket_gc -/
def Kern.full (k : Kern) (i n : ℕ) : Finset ℕ :=
  (Finset.range n).filter fun p => (k.usage p).kuGccnt = (k.bucket i).kbElmpercl

theorem Kern.full_succ (k : Kern) (i n : ℕ) : k.full i (n + 1) =
    if (k.usage n).kuGccnt = (k.bucket i).kbElmpercl then insert n (k.full i n) else k.full i n := by
  rw [full, Finset.range_add_one, Finset.filter_insert, full]

theorem Kern.mem_full : p ∈ k.full i n ↔ p < n ∧ (k.usage p).kuGccnt = (k.bucket i).kbElmpercl := by
  rw [full, Finset.mem_filter, Finset.mem_range]

theorem sweep_spec (k : Kern) (i n : ℕ) : ∃ k', k.sweep i n = ((k.full i n).card, k') ∧
    (∀ p, k'.usage p = if p < n then { k.usage p with kuGccnt := 0 } else k.usage p) ∧
    (∀ q, q ∉ k.full i n → k'.map q = k.map q) ∧ k'.areas = k.areas \ k.full i n ∧
    k'.bucket = update k.bucket i { k.bucket i with
      kbTotal := (k.bucket i).kbTotal - ((k.full i n).card * (k.bucket i).kbElmpercl : ℕ)
      kbTotalfree := (k.bucket i).kbTotalfree - ((k.full i n).card * (k.bucket i).kbElmpercl : ℕ) } ∧
    k' = { k with usage := k'.usage, map := k'.map, areas := k'.areas, bucket := k'.bucket } := by
  induction n with
  | zero =>
    refine ⟨k, rfl, fun p => (if_neg (Nat.not_lt_zero p)).symm, fun _ _ => rfl, ?_, ?_, rfl⟩
    · exact Finset.sdiff_empty.symm
    · have hzero : ∀ x : ℤ, x - ((0 : ℕ) : ℤ) = x := fun x => by omega
      rw [show k.full i 0 = ∅ from rfl, Finset.card_empty, Nat.zero_mul, hzero, hzero]
      exact (update_eq_self i k.bucket).symm
  | succ n ih =>
    obtain ⟨k1, hk1, husage, hmap, hareas, hbucket, heq⟩ := ih
    have hown : k1.usage n = k.usage n := by rw [husage, if_neg (lt_irrefl n)]
    have hbi : k1.bucket i = { k.bucket i with
        kbTotal := (k.bucket i).kbTotal - ((k.full i n).card * (k.bucket i).kbElmpercl : ℕ)
        kbTotalfree := (k.bucket i).kbTotalfree - ((k.full i n).card * (k.bucket i).kbElmpercl : ℕ) } := by
      rw [hbucket, update_self]
    have helm : (k1.bucket i).kbElmpercl = (k.bucket i).kbElmpercl := by rw [hbi]
    have hclear : ∀ p, update k1.usage n { k1.usage n with kuGccnt := 0 } p =
        if p < n + 1 then { k.usage p with kuGccnt := 0 } else k.usage p := by
      intro p
      by_cases hp : p = n
      · subst hp
        rw [update_self, hown, if_pos (Nat.lt_succ_self p)]
      rw [update_of_ne hp, husage]
      by_cases hlt : p < n
      · rw [if_pos hlt, if_pos (Nat.lt_succ_of_lt hlt)]
      · rw [if_neg hlt, if_neg (by omega)]
    rw [sweep, hk1, full_succ]
    by_cases hfull : (k.usage n).kuGccnt = (k.bucket i).kbElmpercl
    · have hnot : n ∉ k.full i n := fun hn => lt_irrefl n (mem_full.mp hn).1
      rw [if_pos hfull, Finset.card_insert_of_notMem hnot]
      refine ⟨_, if_pos (by rw [hown, helm, hfull]), hclear, fun q hq => ?_, ?_, ?_, ?_⟩
      · obtain ⟨hqn, hq⟩ := not_or.mp fun hor => hq (Finset.mem_insert.mpr hor)
        refine Eq.trans (if_neg ?_) (hmap q hq)
        omega
      · change k1.areas.erase n = _
        rw [hareas, Finset.sdiff_insert]
      · change update k1.bucket i _ = _
        rw [hbi, hbucket, update_idem, Nat.succ_mul]
        refine congrArg _ ?_
        simp only [Kmembuckets.mk.injEq, true_and, and_true]
        omega
      · rw [heq]
        rfl
    · rw [if_neg hfull]
      refine ⟨_, if_neg (by rw [hown, helm]; exact hfull), hclear, hmap, hareas, hbucket, ?_⟩
      rw [heq]

/-! ## The invariant -/

namespace Inv

variable {F : Finset ℕ} {tail : List ℕ}

theorem mem_of_count (h : Inv k live req fl) (hsub : ∀ a ∈ l, a ∈ fl i) (hnodup : l.Nodup)
    (hcount : (l.countP fun a => decide (k.btokup a = p)) = elmOf i) :
    p ∈ k.areas ∧ k.idx p = i ∧ ∀ a ∈ k.slots p, a ∈ l := by
  have hmem : ∀ {a}, a ∈ l.filter (fun a => decide (k.btokup a = p)) → a ∈ l ∧ k.btokup a = p := fun ha => by
    rwa [mem_filter, decide_eq_true_eq] at ha
  rw [countP_eq_length_filter] at hcount
  obtain ⟨a, ha⟩ := exists_mem_of_length_pos (hcount ▸ elmOf_pos i)
  obtain ⟨hal, hap⟩ := hmem ha
  obtain ⟨hp, hidx, -⟩ := mem_chunks.mp (h.mem.mp (hsub a hal)).1
  rw [hap] at hp hidx
  refine ⟨hp, hidx, ?_⟩
  -- as many of them as there are chunks
  have hcard : (l.filter fun a => decide (k.btokup a = p)).toFinset.card = elmOf i := by
    rw [toFinset_card_of_nodup (hnodup.filter _), hcount]
  have heq : (l.filter fun a => decide (k.btokup a = p)).toFinset = k.slots p := by
    refine Finset.eq_of_subset_of_card_le (fun b hb => ?_) ?_
    · obtain ⟨hbl, hbp⟩ := hmem (mem_toFinset.mp hb)
      have hslot := (mem_chunks.mp (h.mem.mp (hsub b hbl)).1).2.2
      rwa [hbp] at hslot
    · rw [card_slots, hidx, hcard]
  intro b hb
  rw [← heq] at hb
  exact (hmem (mem_toFinset.mp hb)).1

/-- **Cleaning a bucket**: the free clusters `F` are given back, and the list has another order. -/
theorem clean {w : ℕ → ℕ} {x : ℕ} (F : Finset ℕ) (h : Inv k live req fl) (hi : i < 12)
    (hF : ∀ p ∈ F, p ∈ k.areas ∧ k.idx p = i ∧ ∀ a ∈ k.slots p, a ∈ fl i)
    (hk : k' = { k with word := w, usage := k'.usage, map := k'.map, areas := k.areas \ F, bucket := k'.bucket })
    (husage : ∀ p, k'.usage p = k.usage p) (hmap : ∀ q, q ∉ F → k'.map q = k.map q)
    (hbucket : k'.bucket = update k.bucket i { k.bucket i with
      kbNext := x
      kbTotal := (k.bucket i).kbTotal - (F.card * elmOf i : ℕ)
      kbTotalfree := (k.bucket i).kbTotalfree - (F.card * elmOf i : ℕ) })
    (hword : ∀ a, a ∉ fl i → w a = k.word a) (hlinked : Linked (fun a => ptr (w a)) (ptr x) l)
    (hmem : ∀ a, a ∈ l ↔ a ∈ fl i ∧ k.btokup a ∉ F) :
    Inv k' live req (update fl i l) := by
  have hareas : k'.areas = k.areas \ F := by rw [hk]
  have hself : k'.bucket i = { k.bucket i with
      kbNext := x
      kbTotal := (k.bucket i).kbTotal - (F.card * elmOf i : ℕ)
      kbTotalfree := (k.bucket i).kbTotalfree - (F.card * elmOf i : ℕ) } := by
    rw [hbucket, update_self]
  have hne : ∀ j, j ≠ i → k'.bucket j = k.bucket j := fun j hj => by rw [hbucket, update_of_ne hj]
  have hidx : ∀ p, k'.idx p = k.idx p := fun p => by rw [idx, husage, idx]
  have hext : ∀ p, k'.extent p = k.extent p := fun p => by
    rw [extent, extent, hidx, husage]
  have hsub : Sub k' k := by
    refine ⟨by rw [hk], by rw [hk], fun j => ?_, ?_, fun p _ => hidx p, fun p _ => hext p, fun p hp q hpq hq => ?_⟩
    · by_cases hj : j = i
      · rw [hj, hself]
        exact ⟨rfl, rfl⟩
      · rw [hne j hj]
        exact ⟨rfl, rfl⟩
    · rw [hareas]
      exact Finset.sdiff_subset
    · -- the clusters given back are areas, and areas are apart
      refine hmap q fun hqF => ?_
      rw [hareas, Finset.mem_sdiff] at hp
      have hpq : p < q := lt_of_le_of_ne hpq fun heq => hp.2 (heq ▸ hqF)
      have := h.layout.apart p hp.1 q (hF q hqF).1 hpq
      omega
  have hsizeOf : k'.sizeOf = k.sizeOf := by
    funext b
    rw [Kern.sizeOf, Kern.sizeOf, hext, hsub.btokup]
  have hchunks : ∀ {a j}, a ∈ k'.chunks j ↔ a ∈ k.chunks j ∧ k.btokup a ∉ F := by
    intro a j
    rw [hsub.mem_chunks, hareas, Finset.mem_sdiff]
    exact and_congr_right fun ha => and_iff_right (mem_chunks.mp ha).1
  have hother : ∀ {a j}, a ∈ k.chunks j → j ≠ i → k.btokup a ∉ F := fun ha hj hF' =>
    hj ((mem_chunks.mp ha).2.1.symm.trans (hF _ hF').2.1)
  have hlive : ∀ {a j}, a ∈ live → a ∈ k.chunks j → k.btokup a ∉ F := fun ha hj hF' =>
    (h.mem.mp ((hF _ hF').2.2 _ (mem_chunks.mp hj).2.2)).2 ha
  have hchunks_ne : ∀ j, j ≠ i → k'.chunks j = k.chunks j := by
    intro j hj
    ext a
    rw [hchunks]
    exact and_iff_left_of_imp fun ha => hother ha hj
  have hgone : F.biUnion k.slots ⊆ k.chunks i \ live := by
    intro a ha
    obtain ⟨p, hp, ha⟩ := Finset.mem_biUnion.mp ha
    exact Finset.mem_sdiff.mpr (h.mem.mp ((hF p hp).2.2 a ha))
  have hcard : (F.biUnion k.slots).card = F.card * elmOf i := card_biUnion_slots fun p hp => (hF p hp).2.1
  have hself' : k'.chunks i = k.chunks i \ F.biUnion k.slots := hsub.chunks_sdiff hareas i
  refine ⟨h.layout.mono hsub, fun j => ?_, fun {j a} => ?_, fun j hj => ?_, fun a ha => ?_, fun a ha => ?_,
    fun p hp hlt => ?_, fun j => ?_, fun j => ?_, ?_, fun p => ?_⟩
  · have hnext : k'.next = fun a => ptr (w a) := by
      funext a
      rw [Kern.next, hk]
    rw [hnext]
    by_cases hj : j = i
    · rw [hj, update_self, Kern.head, hself]
      exact hlinked
    · rw [update_of_ne hj, Kern.head, hne j hj]
      refine (h.linked j).congr fun a ha => ?_
      rw [Kern.next, hword a (h.ne_of_mem ha fun heq => hj heq.symm)]
  · rw [hchunks]
    by_cases hj : j = i
    · rw [hj, update_self, hmem, h.mem, and_right_comm]
    rw [update_of_ne hj, h.mem]
    constructor
    · exact fun ha => ⟨⟨ha.1, hother ha.1 hj⟩, ha.2⟩
    · exact fun ha => ⟨ha.1.1, ha.2⟩
  · rw [update_of_ne (by omega)]
    exact h.large j hj
  · obtain ⟨j, hj⟩ := h.held a ha
    exact ⟨j, hchunks.mpr ⟨hj, hlive ha hj⟩⟩
  · rw [hsizeOf]
    exact h.fits a ha
  · have hpa := hsub.areas hp
    rw [hidx] at hlt
    rw [husage, hsub.slots hp]
    exact h.cnt p hpa hlt
  · by_cases hj : j = i
    · have htotal := h.total i
      have hsdiff := Finset.card_sdiff_add_card_eq_card (hgone.trans Finset.sdiff_subset)
      rw [hcard] at hsdiff
      rw [hj, hself, hself']
      change (k.bucket i).kbTotal - _ = _
      omega
    · rw [hne j hj, hchunks_ne j hj]
      exact h.total j
  · by_cases hj : j = i
    · have htotal := h.totalfree i
      have hsdiff := Finset.card_sdiff_add_card_eq_card hgone
      rw [hcard, sdiff_right_comm] at hsdiff
      rw [hj, hself, hself']
      change (k.bucket i).kbTotalfree - _ = _
      omega
    · rw [hne j hj, hchunks_ne j hj]
      exact h.totalfree j
  · rw [hsizeOf, hk]
    exact h.charged
  · rw [husage]
    exact h.gccnt p

section

variable (h : Inv k live req fl) (hi : 4 ≤ i ∧ i < 12)
  (hlen : ((k.bucket i).kbHighwat : ℤ) < (k.bucket i).kbTotalfree)
include h hi hlen

theorem exists_split :
    ∃ pre x tail, fl i = pre ++ x :: tail ∧ (k.bucket i).kbHighwat / 4 = pre.length + 1 := by
  have hwat : (k.bucket i).kbHighwat = highwatOf i := (h.layout.tuned i (by omega)).2
  have hle : 1 ≤ highwatOf i / 4 ∧ highwatOf i / 4 ≤ highwatOf i := by
    refine ⟨?_, Nat.div_le_self _ _⟩
    obtain ⟨-, hi⟩ := hi
    clear hlen hwat
    revert i
    decide
  have htotal := h.totalfree i
  rw [← h.length_eq] at htotal
  have hlt : highwatOf i / 4 - 1 < (fl i).length := by omega
  refine ⟨(fl i).take (highwatOf i / 4 - 1), (fl i)[highwatOf i / 4 - 1], (fl i).drop (highwatOf i / 4 - 1 + 1), ?_, ?_⟩
  · rw [← drop_eq_getElem_cons hlt, take_append_drop]
  · rw [length_take_of_le hlt.le, hwat]
    omega

theorem bucketGc :
    ∃ freed k' fl', k.bucketGc i = some (freed, k') ∧ Inv k' live req fl' := by
  obtain ⟨pre, x, tail, hfl, hskip⟩ := h.exists_split hi hlen
  have helm : (k.bucket i).kbElmpercl = elmOf i := (h.layout.tuned i (by omega)).1
  have hlinked := h.linked i
  have hnodup := hlinked.nodup
  rw [hfl] at hlinked hnodup
  obtain ⟨-, hxtail, hapart⟩ := nodup_append.mp hnodup
  obtain ⟨hx, htail⟩ := nodup_cons.mp hxtail
  have hin : ∀ a ∈ tail, a ∈ fl i := fun a ha => by
    rw [hfl]
    exact mem_append_right pre (mem_cons_of_mem x ha)
  have hfront : ∀ a ∈ pre ++ [x], a ∉ tail := by
    intro a ha hat
    rcases mem_append.mp ha with ha | ha
    · exact hapart a ha a (mem_cons_of_mem x hat) rfl
    · rw [mem_singleton.mp ha] at hat
      exact hx hat
  -- the list is cut behind `x`
  obtain ⟨w, hw⟩ : ∃ w, w = update k.word x 0 := ⟨_, rfl⟩
  have hwnext : (fun a => ptr (w a)) = relinkNext (pre ++ [x]).getLast? k.next none := by
    rw [hw, getLast?_concat, relinkNext]
    exact Function.comp_update ptr k.word x 0
  have hcut : Linked (fun a => ptr (w a)) (k.head i) (pre ++ [x]) := by
    rw [append_cons] at hlinked
    have hnil : Linked k.next none [] := rfl
    have hrelink := hlinked.relink hnil (hlinked.nodup.sublist (sublist_append_left _ _))
      fun _ _ => not_mem_nil
    rw [← hwnext, getLast?_concat, append_nil] at hrelink
    exact hrelink
  have hrest : Linked (fun a => ptr (w a)) (ptr (k.word x)) tail := by
    refine hlinked.next_eq.congr fun a ha => ?_
    rw [hw, update_of_ne (ne_of_mem_of_not_mem ha hx), Kern.next]
  have hbound : tail.length < k.fuel := by
    refine Nat.lt_succ_of_le (hrest.length_le fun a ha => ?_)
    exact (h.layout.chunk_mem (h.mem.mp (hin a ha)).1).2
  -- the chunks are counted
  obtain ⟨usage, husage⟩ : ∃ usage, usage = k.count k.usage tail := ⟨_, rfl⟩
  have hcounted : ∀ p, usage p = { k.usage p with kuGccnt := tail.countP fun a => decide (k.btokup a = p) } := by
    intro p
    rw [husage, count_eq, h.gccnt p, Nat.zero_add]
  have hgccnt : ∀ p, (usage p).kuGccnt = tail.countP fun a => decide (k.btokup a = p) := fun p => by
    rw [hcounted]
  -- and put into a new order
  have hbuilt : Kern.Lists.Built ⟨w, k.word x, 0, none, none⟩ [] [] :=
    ⟨trivial, trivial, rfl, rfl, fun _ => rfl, nodup_nil⟩
  obtain ⟨c, hc, hbuilt', hsame⟩ := hbuilt.relink_spec (fun a => (usage (k.btokup a)).kuGccnt)
    (elmOf i) hrest hbound fun _ _ => not_mem_nil
  rw [nil_append, nil_append] at hbuilt'
  obtain ⟨A, hA⟩ : ∃ A, A = tail.filter fun a => decide ((usage (k.btokup a)).kuGccnt ≠ elmOf i ∧
      ¬ elmOf i / 2 < (usage (k.btokup a)).kuGccnt) := ⟨_, rfl⟩
  obtain ⟨B, hB⟩ : ∃ B, B = tail.filter fun a => decide ((usage (k.btokup a)).kuGccnt ≠ elmOf i ∧
      elmOf i / 2 < (usage (k.btokup a)).kuGccnt) := ⟨_, rfl⟩
  rw [← hA, ← hB] at hbuilt'
  have hAB : ∀ a, a ∈ A ++ B ↔ a ∈ tail ∧ (usage (k.btokup a)).kuGccnt ≠ elmOf i := by
    intro a
    rw [mem_append, hA, hB, mem_filter, mem_filter, decide_eq_true_eq, decide_eq_true_eq]
    tauto
  have hpost : Linked c.next (ptr (k.bucket i).kbNext) (pre ++ [x]) := by
    refine hcut.congr fun a ha => ?_
    rw [Kern.Lists.next, hsame a not_mem_nil (hfront a ha)]
  obtain ⟨hjoined, hwords⟩ := hbuilt'.join hpost fun a ha haAB => hfront a ha ((hAB a).mp haAB).1
  have hwords' : ∀ a, a ∉ fl i → (c.join (k.bucket i).kbNext).word a = k.word a := by
    intro a ha
    have hat : a ∉ tail := fun hat => ha (hin a hat)
    have hax : a ≠ x := by
      rintro rfl
      exact ha (hfl ▸ mem_append_right pre mem_cons_self)
    rw [hwords a fun haAB => hat ((hAB a).mp haAB).1, hsame a not_mem_nil hat]
    change w a = k.word a
    rw [hw, update_of_ne hax]
  -- the clusters that are counted as free
  obtain ⟨k1, hk1⟩ : ∃ k1, k1 = { k with
      word := (c.join (k.bucket i).kbNext).word
      usage := usage
      bucket := update k.bucket i { k.bucket i with
        kbNext := (c.join (k.bucket i).kbNext).head } } := ⟨_, rfl⟩
  obtain ⟨k', hk', hclear, hmap, hareas, hbucket, heq⟩ := sweep_spec k1 i (k.kmemsize / clbytes)
  obtain ⟨F, hF⟩ : ∃ F, F = k1.full i (k.kmemsize / clbytes) := ⟨_, rfl⟩
  rw [← hF] at hk' hmap hareas hbucket
  have hb1 : k1.bucket i = { k.bucket i with kbNext := (c.join (k.bucket i).kbNext).head } := by
    rw [hk1]
    exact update_self _ _ _
  have helm1 : (k1.bucket i).kbElmpercl = elmOf i := by rw [hb1, ← helm]
  have husage1 : k1.usage = usage := by rw [hk1]
  have hpage : ∀ {a}, a ∈ tail → k.btokup a < k.kmemsize / clbytes := by
    intro a ha
    have hp := (mem_chunks.mp (h.mem.mp (hin a ha)).1).1
    have hinside := h.layout.inside _ hp
    have hpos := h.layout.span_pos hp
    omega
  have hFmem : ∀ p, p ∈ F ↔ p < k.kmemsize / clbytes ∧ (usage p).kuGccnt = elmOf i := by
    intro p
    rw [hF, mem_full, helm1, husage1]
  have hFall : ∀ p ∈ F, p ∈ k.areas ∧ k.idx p = i ∧ ∀ a ∈ k.slots p, a ∈ tail := by
    intro p hp
    refine h.mem_of_count hin htail ?_
    rw [← hgccnt]
    exact ((hFmem p).mp hp).2
  refine ⟨F.card, k', update fl i (A ++ (B ++ (pre ++ [x]))), ?_, ?_⟩
  · have hcollect : collect (fun a => ptr (w a)) k.fuel (ptr (k.word x)) = some tail := hrest.collect_eq hbound
    have hfirst : skip k.word ((k.bucket i).kbHighwat / 4) (k.bucket i).kbNext = x := by
      rw [hskip]
      exact skip_eq hlinked
    rw [← helm] at hc
    rw [Kern.bucketGc, hfirst, ← hw, hcollect, Option.bind_some, ← husage]
    refine (congrArg (Option.map _) hc).trans ?_
    rw [hk1] at hk'
    exact congrArg some hk'
  · refine h.clean F (by omega) (fun p hp => ?_) ?_ (fun p => ?_) (fun q hq => ?_) ?_ hwords' hjoined fun a => ?_
    · obtain ⟨hp, hidx, hslots⟩ := hFall p hp
      exact ⟨hp, hidx, fun a ha => hin a (hslots a ha)⟩
    · rw [heq, hareas, hk1]
    · rw [hclear, husage1, hcounted]
      by_cases hp : p < k.kmemsize / clbytes
      · rw [if_pos hp]
        exact congrArg (Kmemusage.mk _ _) (h.gccnt p).symm
      rw [if_neg hp]
      have hzero : (tail.countP fun a => decide (k.btokup a = p)) = 0 := by
        refine countP_eq_zero.mpr fun a ha hap => hp ?_
        rw [← of_decide_eq_true hap]
        exact hpage ha
      rw [hzero]
      exact congrArg (Kmemusage.mk _ _) (h.gccnt p).symm
    · rw [hmap q hq, hk1]
    · rw [hbucket, helm1, hb1, hk1, update_idem]
    · rw [← append_assoc, mem_append, hAB, hfl]
      constructor
      · rintro (⟨ha, hne⟩ | ha)
        · refine ⟨mem_append_right pre (mem_cons_of_mem x ha), fun hp => hne ((hFmem _).mp hp).2⟩
        · refine ⟨?_, fun hp => ?_⟩
          · rw [append_cons]
            exact mem_append_left tail ha
          · have hchunk := (h.mem.mp (show a ∈ fl i by
              rw [hfl, append_cons]
              exact mem_append_left tail ha)).1
            exact hfront a ha ((hFall _ hp).2.2 a (mem_chunks.mp hchunk).2.2)
      · rintro ⟨ha, hp⟩
        rw [append_cons] at ha
        rcases mem_append.mp ha with ha | ha
        · exact .inr ha
        · exact .inl ⟨ha, fun heq' => hp ((hFmem _).mpr ⟨hpage ha, heq'⟩)⟩

end

theorem needgc (h : Inv k live req fl) (b : Bool) : Inv { k with needgc := b } live req fl :=
  ⟨⟨h.layout.base, h.layout.size, h.layout.tuned, h.layout.idx, h.layout.pos, h.layout.inside, h.layout.used,
    h.layout.apart⟩, h.linked, h.mem, h.large, h.held, h.fits, h.cnt, h.total, h.totalfree, h.charged, h.gccnt⟩

theorem gcLoop (force : Bool) (h : Inv k live req fl) (hi : 4 ≤ i) (hn : i + n ≤ 12) :
    ∃ freed k' fl', Kern.gcLoop force n i k = some (freed, k') ∧ Inv k' live req fl' := by
  induction n generalizing k fl i with
  | zero => exact ⟨0, k, fl, rfl, h⟩
  | succ n ih =>
    rw [gcLoop]
    by_cases hgc : (k.wantgc i || (force && decide (((k.bucket i).kbElmpercl : ℤ) <
        (k.bucket i).kbTotalfree - (k.bucket i).kbHighwat))) = true
    · have hlen : ((k.bucket i).kbHighwat : ℤ) < (k.bucket i).kbTotalfree := by
        rw [Bool.or_eq_true, Bool.and_eq_true, wantgc, decide_eq_true_eq, decide_eq_true_eq] at hgc
        omega
      obtain ⟨freed, k1, fl1, hk1, h1⟩ := h.bucketGc ⟨hi, by omega⟩ hlen
      obtain ⟨freed', k', fl', hk', h'⟩ := ih h1 (show 4 ≤ i + 1 by omega) (by omega)
      refine ⟨freed + freed', k', fl', ?_, h'⟩
      rw [if_pos hgc, hk1, Option.bind_some]
      exact congrArg (Option.map _) hk'
    · rw [if_neg hgc]
      exact ih h (by omega) (by omega)

theorem mallocGc (force : Bool) (h : Inv k live req fl) :
    ∃ freed k' fl', k.mallocGc force = some (freed, k') ∧ Inv k' live req fl' :=
  (h.needgc false).gcLoop force (by decide) (by decide)

end Inv

end Bsd386.Kern.Malloc
