import Bsd386.Db.Btree.Own
import Bsd386.Db.Btree.Split

/-!
# Where a page is split

What `bt_psplit`, `bt_page` and `bt_root` do when no item has its key on an overflow page and every item is
shorter than half a page.
-/

namespace Bsd386.Db.Btree

open List

variable {α β : Type}
  {S : List (ℕ × Bool)} {full ilen m pg skip : ℕ} {own : List ℕ}

/-! ## The loop -/

def sumTo (S : List (ℕ × Bool)) (n : ℕ) : ℕ := ((S.take n).map Prod.fst).sum

/-- The item to insert at the index `skip` goes to the left page, with the items before the index `m`: those
before `skip` are less than half a page, and it is split where half a page is reached.
Source: bt_psplit -/
structure LeftEnd (full : ℕ) (S : List (ℕ × Bool)) (skip ilen m : ℕ) : Prop where
  skip_le : skip ≤ m
  le_length : m ≤ S.length
  before : sumTo S skip < full / 2
  last : m = skip ∨ sumTo S (m - 1) + ilen < full / 2
  stop : full / 2 ≤ sumTo S m + ilen ∨ m = S.length

/-- If the item to insert goes to the left page, it fits there, with its offset and those of the others. -/
def LeftRoom (full : ℕ) (S : List (ℕ × Bool)) (skip ilen : ℕ) : Prop :=
  ∀ m, LeftEnd full S skip ilen m → sumTo S m + ilen + indxSize * (m + 1) ≤ full

theorem sumTo_succ {n : ℕ} {x : ℕ × Bool} {rest : List (ℕ × Bool)}
    (h : S.drop n = x :: rest) : sumTo S (n + 1) = sumTo S n + x.1 ∧ S.drop (n + 1) = rest ∧
      n < S.length ∧ x ∈ S := by
  have hlen := congrArg length h
  rw [length_drop, length_cons] at hlen
  have hn : n < S.length := by omega
  rw [drop_eq_getElem_cons hn] at h
  obtain ⟨hx, hrest⟩ := cons.inj h
  refine ⟨?_, hrest, hn, hx ▸ getElem_mem hn⟩
  rw [sumTo, sumTo, take_succ_eq_append_getElem hn, map_append, sum_append, hx]
  simp

/-- **The loop of `bt_psplit`** stops at the end, or with the item that makes half a page: before the item
to insert is reached, with it, or after it. -/
theorem psplitLoop_spec
    (hS : ∀ x ∈ S, x.1 < full / 2 ∧ x.2 = false) (hilen : ilen < full / 2) (hskip : skip ≤ S.length)
    {n nxt off used : ℕ}
    (hstate : (off = nxt ∧ off ≤ skip ∧ used = sumTo S nxt) ∨
      (off = nxt + 1 ∧ skip < off ∧ sumTo S skip < full / 2 ∧ used = sumTo S nxt + ilen))
    (hnxt : nxt ≤ S.length) (hused : used < full / 2) (hn : S.length + 1 < n + off) :
    ∃ m slots, psplitLoop full skip ilen n (S.drop nxt) nxt off used 0 = (m, slots) ∧ m ≤ S.length ∧
      ((slots = m ∧ m ≤ skip ∧ full / 2 ≤ sumTo S m) ∨
       (slots = m + 1 ∧ LeftEnd full S skip ilen m) ∨
       (slots = m + 2 ∧ m = S.length ∧ sumTo S m + ilen < full / 2)) := by
  induction n generalizing nxt off used with
  | zero => omega
  | succ n ih =>
    cases hrest : S.drop nxt with
    | nil =>
      have hend : S.length ≤ nxt := by
        have hlen := congrArg length hrest
        rw [length_drop, length_nil] at hlen
        omega
      refine ⟨nxt, off + 1, rfl, hnxt, ?_⟩
      rcases hstate with ⟨hoff, hle, hsum⟩ | ⟨hoff, hlt, hbefore, hsum⟩
      · have heq : nxt = skip := by omega
        refine .inr (.inl ⟨by omega, ⟨by omega, hnxt, ?_, .inl heq, .inr (by omega)⟩⟩)
        rw [← heq, ← hsum]
        exact hused
      · exact .inr (.inr ⟨by omega, by omega, by omega⟩)
    | cons x rest =>
      obtain ⟨hsum', hrest', hlt, hmem⟩ := sumTo_succ hrest
      obtain ⟨hx, hbig⟩ := hS x hmem
      rw [psplitLoop]
      -- no item is large enough for the check to stop the loop
      by_cases heq : skip = off
      · have hstate' : off = nxt ∧ used = sumTo S nxt := by omega
        obtain ⟨hoff, hsum⟩ := hstate'
        have hbefore : sumTo S skip < full / 2 := by
          rw [heq, hoff, ← hsum]
          exact hused
        simp only [if_pos heq]
        rw [if_neg (by omega)]
        by_cases hhalf : full / 2 ≤ used + ilen
        · rw [if_pos hhalf, if_pos (by simp)]
          exact ⟨nxt, off + 1, rfl, hnxt, .inr (.inl ⟨by omega,
            ⟨by omega, hnxt, hbefore, .inl (by omega), .inl (by omega)⟩⟩)⟩
        · rw [if_neg hhalf, ← hrest]
          exact ih (.inr ⟨by omega, by omega, hbefore, by omega⟩) hnxt (by omega) (by omega)
      · simp only [if_neg heq]
        rw [if_neg (by omega)]
        by_cases hhalf : full / 2 ≤ used + x.1
        · rw [if_pos hhalf, if_pos (by simp [hbig])]
          refine ⟨nxt + 1, off + 1, rfl, hlt, ?_⟩
          rcases hstate with ⟨hoff, hle, hsum⟩ | ⟨hoff, hgt, hbefore, hsum⟩
          · exact .inl ⟨by omega, by omega, by omega⟩
          · refine .inr (.inl ⟨by omega, ⟨by omega, hlt, hbefore, .inr ?_, .inl (by omega)⟩⟩)
            rw [Nat.add_sub_cancel, ← hsum]
            exact hused
        · rw [if_neg hhalf, ← hrest']
          refine ih ?_ hlt (by omega) (by omega)
          rcases hstate with ⟨hoff, hle, hsum⟩ | ⟨hoff, hgt, hbefore, hsum⟩
          · exact .inl ⟨by omega, by omega, by omega⟩
          · exact .inr ⟨by omega, by omega, hbefore, by omega⟩

theorem sumTo_ge (hS : ∀ x ∈ S, 8 ≤ x.1) : 8 * S.length ≤ sumTo S S.length := by
  rw [sumTo, take_length]
  induction S with
  | nil => exact Nat.le_refl 0
  | cons x S ih =>
    have hx := hS x mem_cons_self
    have hrest := ih fun y hy => hS y (mem_cons_of_mem x hy)
    rw [length_cons, map_cons, sum_cons]
    omega

/-- **Where a page is split** that has no room for an item: behind items that take half a page, with the
item to insert for the right page; or behind fewer, with it among them. No offset is left unwritten. -/
theorem psplit_spec (hfull : 64 ≤ full)
    (hS : ∀ x ∈ S, 8 ≤ x.1 ∧ x.1 < full / 2 ∧ x.2 = false) (hilen : ilen < full / 2)
    (hskip : skip ≤ S.length) (hno : full < sumTo S S.length + ilen + 2 * (S.length + 1)) :
    ∃ m inLeft, psplit full S skip ilen = some (m, inLeft) ∧ 1 ≤ m ∧ m ≤ S.length ∧
      ((inLeft = false ∧ m ≤ skip ∧ full / 2 ≤ sumTo S m) ∨
       (inLeft = true ∧ LeftEnd full S skip ilen m)) := by
  have hge := sumTo_ge fun x hx => (hS x hx).1
  have hzero : sumTo S 0 = 0 := rfl
  have hpos : 1 ≤ S.length := by
    by_contra h
    have hlen : S.length = 0 := by omega
    rw [hlen, hzero] at hno
    omega
  have hstart : ((0 : ℕ) = 0 ∧ 0 ≤ skip ∧ 0 = sumTo S 0) ∨
      ((0 : ℕ) = 0 + 1 ∧ skip < 0 ∧ sumTo S skip < full / 2 ∧ 0 = sumTo S 0 + ilen) :=
    .inl ⟨rfl, Nat.zero_le _, hzero.symm⟩
  obtain ⟨m, slots, hloop, hm, hcases⟩ := psplitLoop_spec (fun x hx => (hS x hx).2) hilen hskip hstart
    (Nat.zero_le _) (by omega) (by omega : S.length + 1 < S.length + 2 + 0)
  rw [drop_zero] at hloop
  have hm1 : ∀ b, full / 2 ≤ sumTo S m + b → b < full / 2 → 1 ≤ m := by
    intro b h hb
    by_contra h0
    have hm0 : m = 0 := by omega
    rw [hm0, hzero] at h
    omega
  rw [psplit, hloop]
  dsimp only
  rcases hcases with ⟨hslots, hle, hhalf⟩ | ⟨hslots, hleft⟩ | ⟨hslots, hend, hsum⟩
  · rw [if_neg (by omega), if_pos hslots]
    exact ⟨m, false, rfl, hm1 0 hhalf (by omega), hm, .inl ⟨rfl, hle, hhalf⟩⟩
  · have hle := hleft.skip_le
    have h1 : 1 ≤ m := by
      rcases hleft.stop with h | h
      · exact hm1 ilen h hilen
      · omega
    rw [if_pos (by omega), if_pos ⟨hslots, by omega⟩]
    exact ⟨m, true, rfl, h1, hm, .inr ⟨rfl, hleft⟩⟩
  · -- all of the items are less than half a page, so there was room
    rw [hend] at hsum
    omega

/-! ## The pages -/

/-- What is read of a page other than its link to the page before. -/
structure SamePage (p p' : Page α β) : Prop where
  body : p'.body = p.body
  nextpg : p'.nextpg = p.nextpg
  preserve : p'.preserve = p.preserve

namespace SamePage

theorem refl (p : Page α β) : SamePage p p := ⟨rfl, rfl, rfl⟩

theorem of_eq {p p' : Page α β} (h : p' = p) : SamePage p p' := h ▸ refl p

theorem trans {p p' p'' : Page α β} (h : SamePage p p') (h' : SamePage p' p'') : SamePage p p'' :=
  ⟨h'.body.trans h.body, h'.nextpg.trans h.nextpg, h'.preserve.trans h.preserve⟩

end SamePage

theorem Tree.set_pages (t : Tree α β) (pg : ℕ) (p : Page α β) (q : ℕ) :
    (t.set pg p).pages q = if q = pg then p else t.pages q := by
  rw [Tree.set]
  exact Function.update_apply _ _ _ _

/-- One page is written. -/
structure Wrote (t t' : Tree α β) (pg : ℕ) (b : Body α β) : Prop where
  sizes : SameSizes t t'
  body : (t'.pages pg).body = b
  nextpg : (t'.pages pg).nextpg = (t.pages pg).nextpg
  other : ∀ q ≠ pg, t'.pages q = t.pages q
  owned : ∀ own, pg ∈ own → Owned t own → Owned t' own

namespace Wrote

theorem set (t : Tree α β) (pg : ℕ) (b : Body α β) :
    Wrote t (t.set pg { t.pages pg with body := b }) pg b where
  sizes := .set _ _ _
  body := by rw [Tree.set_pages, if_pos rfl]
  nextpg := by rw [Tree.set_pages, if_pos rfl]
  other := fun q hq => by rw [Tree.set_pages, if_neg hq]
  owned := fun own hpg h => h.set (.inl hpg)

theorem keep {t t' : Tree α β} {b : Body α β} (h : Wrote t t' pg b) {c : List ℕ} (hc : pg ∉ c) :
    ∀ q ∈ c, t'.pages q = t.pages q :=
  fun q hq => h.other q fun heq => hc (heq ▸ hq)

theorem trans {t t' t'' : Tree α β} {b b' : Body α β} (h : Wrote t t' pg b)
    (h' : Wrote t' t'' pg b') : Wrote t t'' pg b' where
  sizes := h.sizes.trans h'.sizes
  body := h'.body
  nextpg := h'.nextpg.trans h.nextpg
  other := fun q hq => (h'.other q hq).trans (h.other q hq)
  owned := fun own hpg ho => h'.owned own hpg (h.owned own hpg ho)

end Wrote

section

variable (Y : Layout α β) (b : Body α β)

theorem Layout.sizes_take (m : ℕ) :
    Y.sizes (b.take m) = (Y.sizes b).take m := by
  cases b with
  | leaf xs => exact map_take
  | internal es => exact map_take
  | overflow bs => exact take_nil.symm

theorem Layout.sizes_drop (m : ℕ) :
    Y.sizes (b.drop m) = (Y.sizes b).drop m := by
  cases b with
  | leaf xs => exact map_drop
  | internal es => exact map_drop
  | overflow bs => exact drop_nil.symm

theorem Layout.sizes_length : (Y.sizes b).length = b.nextindex := by
  cases b with
  | leaf xs => exact length_map _
  | internal es => exact (length_map _).trans (Nat.zero_add _).symm
  | overflow bs => rfl

theorem Layout.used_eq :
    Y.used b = sumTo (Y.sizes b) (Y.sizes b).length + 2 * (Y.sizes b).length := by
  rw [Layout.used, sumTo, take_length, Y.sizes_length, indxSize]

theorem Layout.used_take (hm : m ≤ (Y.sizes b).length) :
    Y.used (b.take m) = sumTo (Y.sizes b) m + 2 * m := by
  have hlen : ((Y.sizes b).take m).length = m := length_take_of_le hm
  rw [Layout.used_eq, Y.sizes_take, hlen, sumTo, take_take, Nat.min_self, sumTo]

theorem Layout.used_drop (hm : m ≤ (Y.sizes b).length) :
    Y.used (b.drop m) + sumTo (Y.sizes b) m + 2 * m = Y.used b := by
  have hsplit : sumTo (Y.sizes b) (Y.sizes b).length =
      sumTo (Y.sizes b) m + ((Y.sizes b).drop m |>.map Prod.fst).sum := by
    rw [sumTo, sumTo, take_length, ← sum_append, ← map_append, take_append_drop]
  rw [Layout.used_eq, Layout.used_eq, hsplit, Y.sizes_drop, length_drop, sumTo,
    take_of_length_le (Nat.le_of_eq length_drop)]
  omega

end

/-- The pages that stay in use beside the two pages: the root stays, another page becomes the left one.
Source: __bt_split -/
def kept (pg : ℕ) (own : List ℕ) : List ℕ := if pg = pRoot then pg :: own else own

/-- A page was split: the two pages have the items before the index `m` and those from it on, and the page
to insert into has room. -/
structure Halved (Y : Layout α β) (t : Tree α β) (pg skip ilen : ℕ) (own : List ℕ) (t' : Tree α β)
    (v : Halves) (m : ℕ) : Prop where
  sizes : SameSizes t t'
  owned : Owned t' (v.l :: v.r :: kept pg own)
  left : (t'.pages v.l).body = (t.pages pg).body.take m
  right : (t'.pages v.r).body = (t.pages pg).body.drop m
  last : (t.pages pg).nextpg = 0 → (t'.pages v.r).nextpg = 0
  same : ∀ q ∈ kept pg own, SamePage (t.pages q) (t'.pages q)
  pos : 1 ≤ m
  le : m ≤ (t.pages pg).body.nextindex
  nonroot : pg ≠ pRoot → v.l = pg
  side : (v.inLeft = false ∧ v.skip = skip - m ∧ m ≤ skip) ∨
    (v.inLeft = true ∧ v.skip = skip ∧ skip ≤ m ∧
      LeftEnd (t.psize - btdataoff) (Y.sizes (t.pages pg).body) skip ilen m)
  room : Y.used (t'.pages v.page).body + ilen + indxSize ≤ t.psize - btdataoff

theorem btRoot_pages {Y : Layout α β} {t : Tree α β} {inLeft : Bool}
    (h : Owned t (pg :: own))
    (hsplit : psplit (t.psize - btdataoff) (Y.sizes (t.pages pg).body) skip ilen = some (m, inLeft)) :
    ∃ t' l r, btRoot Y t pg skip ilen = some (t', ⟨l, r, inLeft, if inLeft then skip else skip - m⟩) ∧
      SameSizes t t' ∧ Owned t' (l :: r :: pg :: own) ∧
      (t'.pages l).body = (t.pages pg).body.take m ∧ (t'.pages r).body = (t.pages pg).body.drop m ∧
      (t'.pages r).nextpg = 0 ∧ ∀ q ∈ pg :: own, t'.pages q = t.pages q := by
  obtain ⟨hpos, hlt⟩ := h.bounds mem_cons_self
  obtain ⟨hown1, hpages1⟩ := h.btNew (by omega)
  have hsizes1 := SameSizes.btNew t
  rw [btRoot]
  generalize btNew t = new at hown1 hpages1 hsizes1 ⊢
  obtain ⟨l, t1⟩ := new
  dsimp only at hown1 hpages1 hsizes1 ⊢
  have hnp := hsizes1.npages
  obtain ⟨hown2, hpages2⟩ := hown1.btNew (by omega)
  have hsizes2 := hsizes1.trans (SameSizes.btNew t1)
  generalize btNew t1 = new at hown2 hpages2 hsizes2 ⊢
  obtain ⟨r, t2⟩ := new
  rw [hsizes2.psize, hsplit]
  obtain ⟨hr, hnodup⟩ := nodup_cons.mp hown2.nodup
  have hl := (nodup_cons.mp hnodup).1
  have hne : l ≠ r := fun heq => hr (heq ▸ mem_cons_self)
  refine ⟨_, l, r, rfl, (hsizes2.trans (.set _ _ _)).trans (.set _ _ _), ?_, ?_, ?_, ?_, fun q hq => ?_⟩
  · refine ((hown2.set (.inl (mem_cons_of_mem r mem_cons_self))).set
      (.inl mem_cons_self)).perm (List.Perm.swap _ _ _)
  · rw [Tree.set_pages, if_neg hne, Tree.set_pages, if_pos rfl]
  · rw [Tree.set_pages, if_pos rfl]
  · rw [Tree.set_pages, if_pos rfl]
  · have hq1 : q ≠ r := fun heq => hr (heq ▸ mem_cons_of_mem l hq)
    have hq2 : q ≠ l := fun heq => hl (heq ▸ hq)
    rw [Tree.set_pages, if_neg hq1, Tree.set_pages, if_neg hq2, hpages2, hpages1]

theorem fixPrev_spec {t : Tree α β} (h : Owned t own) (pg npg : ℕ) :
    ∃ t', (if pg ≠ 0 then t.set pg { t.pages pg with prevpg := npg } else t) = t' ∧ Owned t' own ∧
      SameSizes t t' ∧ ∀ q, SamePage (t.pages q) (t'.pages q) := by
  refine ⟨_, rfl, ?_⟩
  by_cases hpg : pg = 0
  · rw [if_neg (by simpa using hpg)]
    exact ⟨h, .refl t, fun q => .refl _⟩
  rw [if_pos hpg]
  refine ⟨h.set (.inr rfl), .set _ _ _, fun q => ?_⟩
  rw [Tree.set_pages]
  by_cases hq : q = pg
  · rw [if_pos hq, hq]
    exact ⟨rfl, rfl, rfl⟩
  · rw [if_neg hq]
    exact .refl _

theorem btPage_pages {Y : Layout α β} {t : Tree α β} {inLeft : Bool}
    (h : Owned t (pg :: own)) (hsorted : ¬((t.pages pg).nextpg = 0 ∧ skip = (t.pages pg).body.nextindex))
    (hsplit : psplit (t.psize - btdataoff) (Y.sizes (t.pages pg).body) skip ilen = some (m, inLeft)) :
    ∃ t' r, btPage Y t pg skip ilen = some (t', ⟨pg, r, inLeft, if inLeft then skip else skip - m⟩) ∧
      SameSizes t t' ∧ Owned t' (pg :: r :: own) ∧
      (t'.pages pg).body = (t.pages pg).body.take m ∧ (t'.pages r).body = (t.pages pg).body.drop m ∧
      (t'.pages r).nextpg = (t.pages pg).nextpg ∧ ∀ q ∈ own, SamePage (t.pages q) (t'.pages q) := by
  obtain ⟨hpos, hlt⟩ := h.bounds mem_cons_self
  obtain ⟨hown1, hpages1⟩ := h.btNew (by omega)
  have hsizes1 := SameSizes.btNew t
  rw [btPage]
  generalize btNew t = new at hown1 hpages1 hsizes1 ⊢
  obtain ⟨r, t1⟩ := new
  dsimp only at hown1 hpages1 hsizes1 ⊢
  rw [if_neg hsorted]
  obtain ⟨t2, heq, hown2, hsizes2, hsame2⟩ := fixPrev_spec hown1 (t.pages pg).nextpg r
  rw [heq, hsizes2.psize, hsizes1.psize, hsplit]
  obtain ⟨hr, hnodup⟩ := nodup_cons.mp hown2.nodup
  have hpg := (nodup_cons.mp hnodup).1
  have hne : r ≠ pg := fun heq => hr (heq ▸ mem_cons_self)
  refine ⟨_, r, rfl, ((hsizes1.trans hsizes2).trans (.set _ _ _)).trans (.set _ _ _), ?_, ?_, ?_, ?_,
    fun q hq => ?_⟩
  · exact ((hown2.set (.inl mem_cons_self)).set
      (.inl (mem_cons_of_mem r mem_cons_self))).perm (List.Perm.swap _ _ _)
  · rw [Tree.set_pages, if_pos rfl]
  · rw [Tree.set_pages, if_neg hne, Tree.set_pages, if_pos rfl]
  · rw [Tree.set_pages, if_neg hne, Tree.set_pages, if_pos rfl]
  · have hq1 : q ≠ r := fun heq => hr (heq ▸ mem_cons_of_mem pg hq)
    have hq2 : q ≠ pg := fun heq => hpg (heq ▸ hq)
    rw [Tree.set_pages, if_neg hq2, Tree.set_pages, if_neg hq1, ← hpages1]
    exact hsame2 q

theorem btPage_sorted (Y : Layout α β) {t : Tree α β} (ilen : ℕ)
    (h : Owned t (pg :: own)) (hsorted : (t.pages pg).nextpg = 0 ∧ skip = (t.pages pg).body.nextindex) :
    ∃ t' r, btPage Y t pg skip ilen = some (t', ⟨pg, r, false, 0⟩) ∧
      SameSizes t t' ∧ Owned t' (pg :: r :: own) ∧ (t'.pages pg).body = (t.pages pg).body ∧
      (t'.pages r).body = (t.pages pg).body.take 0 ∧ (t'.pages r).nextpg = 0 ∧
      ∀ q ∈ own, t'.pages q = t.pages q := by
  obtain ⟨hpos, hlt⟩ := h.bounds mem_cons_self
  obtain ⟨hown1, hpages1⟩ := h.btNew (by omega)
  have hsizes1 := SameSizes.btNew t
  rw [btPage]
  generalize btNew t = new at hown1 hpages1 hsizes1 ⊢
  obtain ⟨r, t1⟩ := new
  dsimp only at hown1 hpages1 hsizes1 ⊢
  rw [if_pos hsorted]
  obtain ⟨hr, hnodup⟩ := nodup_cons.mp hown1.nodup
  have hpg := (nodup_cons.mp hnodup).1
  have hne : r ≠ pg := fun heq => hr (heq ▸ mem_cons_self)
  refine ⟨_, r, rfl, (hsizes1.trans (.set _ _ _)).trans (.set _ _ _), ?_, ?_, ?_, ?_, fun q hq => ?_⟩
  · exact ((hown1.set (.inl mem_cons_self)).set
      (.inl (mem_cons_of_mem r mem_cons_self))).perm (List.Perm.swap _ _ _)
  · rw [Tree.set_pages, if_pos rfl]
  · rw [Tree.set_pages, if_neg hne, Tree.set_pages, if_pos rfl]
  · rw [Tree.set_pages, if_neg hne, Tree.set_pages, if_pos rfl]
    exact hsorted.1
  · have hq1 : q ≠ r := fun heq => hr (heq ▸ mem_cons_of_mem pg hq)
    have hq2 : q ≠ pg := fun heq => hpg (heq ▸ hq)
    rw [Tree.set_pages, if_neg hq2, Tree.set_pages, if_neg hq1, hpages1]

theorem Layout.used_take_zero (Y : Layout α β) (b : Body α β) : Y.used (b.take 0) = 0 := by
  rw [Y.used_take b (Nat.zero_le _)]
  rfl

theorem Layout.right_room (Y : Layout α β) {b : Body α β} (hused : Y.used b ≤ full)
    (hm : m ≤ (Y.sizes b).length) (h1 : 1 ≤ m) (hhalf : full / 2 ≤ sumTo (Y.sizes b) m)
    (hilen : ilen < full / 2) : Y.used (b.drop m) + ilen + indxSize ≤ full := by
  have hdrop := Y.used_drop b hm
  rw [indxSize]
  omega

/-- **A page without room for an item is split** into two, with room for the item on the page it is to go
to, if there is room in case that is the left one. -/
theorem splitPage_spec (Y : Layout α β) {t : Tree α β} (skip ilen : ℕ)
    (h : Owned t (pg :: own)) (hpsize : 512 ≤ t.psize)
    (hitems : ∀ x ∈ Y.sizes (t.pages pg).body,
      8 ≤ x.1 ∧ x.1 < (t.psize - btdataoff) / 2 ∧ x.2 = false)
    (hilen : ilen < (t.psize - btdataoff) / 2) (hskip : skip ≤ (t.pages pg).body.nextindex)
    (hused : Y.used (t.pages pg).body ≤ t.psize - btdataoff)
    (hno : Y.free t.psize (t.pages pg).body < ilen + indxSize)
    (hroom : pg = pRoot ∨ (t.pages pg).nextpg ≠ 0 ∨ skip ≠ (t.pages pg).body.nextindex →
      LeftRoom (t.psize - btdataoff) (Y.sizes (t.pages pg).body) skip ilen) :
    ∃ t' v m, splitPage Y t pg skip ilen = some (t', v) ∧ Halved Y t pg skip ilen own t' v m := by
  have hlen := Y.sizes_length (t.pages pg).body
  have husedeq := Y.used_eq (t.pages pg).body
  have hfull : 492 ≤ t.psize - btdataoff := by
    rw [btdataoff]
    omega
  rw [Layout.free, indxSize] at hno
  rw [splitPage]
  by_cases hsorted : pg ≠ pRoot ∧ (t.pages pg).nextpg = 0 ∧ skip = (t.pages pg).body.nextindex
  · obtain ⟨hroot, hlast⟩ := hsorted
    obtain ⟨t', r, heq, hsizes, hown, hleft, hright, hnext, hsame⟩ :=
      btPage_sorted Y ilen h hlast
    have hempty : (t.pages pg).body.take 0 = (t.pages pg).body.drop skip ∧
        (t.pages pg).body.take skip = (t.pages pg).body := by
      rw [hlast.2]
      cases (t.pages pg).body with
      | leaf xs => simp [Body.take, Body.drop, Body.nextindex, Body.items, Body.entries]
      | internal es => simp [Body.take, Body.drop, Body.nextindex, Body.items, Body.entries]
      | overflow bs => exact ⟨rfl, rfl⟩
    have hpos : 1 ≤ skip := by
      by_contra h0
      have hzero : (Y.sizes (t.pages pg).body).length = 0 := by omega
      rw [husedeq, hzero] at hno
      have : sumTo (Y.sizes (t.pages pg).body) 0 = 0 := rfl
      omega
    rw [if_neg hroot]
    refine ⟨t', _, skip, heq, hsizes, ?_, hleft.trans hempty.2.symm, hright.trans hempty.1,
      fun _ => hnext, ?_, hpos, hskip, fun _ => rfl, .inl ⟨rfl, (Nat.sub_self _).symm, Nat.le_refl _⟩, ?_⟩
    · rw [kept, if_neg hroot]
      exact hown
    · rw [kept, if_neg hroot]
      exact fun q hq => .of_eq (hsame q hq)
    · rw [Halves.page, if_neg Bool.false_ne_true, hright, Y.used_take_zero, indxSize]
      omega
  · obtain ⟨m, inLeft, hsplit, h1, hm, hside⟩ := psplit_spec (by omega) hitems hilen
      (hlen ▸ hskip) (by omega)
    have hroomat : ∀ body, body = (if inLeft then (t.pages pg).body.take m else (t.pages pg).body.drop m) →
        Y.used body + ilen + indxSize ≤ t.psize - btdataoff := by
      rintro body rfl
      rcases hside with ⟨rfl, -, hhalf⟩ | ⟨rfl, hleft⟩
      · exact Y.right_room hused hm h1 hhalf hilen
      have hfits := hroom (by tauto) m hleft
      rw [if_pos rfl, Y.used_take _ hm]
      rw [indxSize] at hfits ⊢
      omega
    have hside' : (inLeft = false ∧ (if inLeft then skip else skip - m) = skip - m ∧ m ≤ skip) ∨
        (inLeft = true ∧ (if inLeft then skip else skip - m) = skip ∧ skip ≤ m ∧
          LeftEnd (t.psize - btdataoff) (Y.sizes (t.pages pg).body) skip ilen m) := by
      rcases hside with ⟨rfl, hle, -⟩ | ⟨rfl, hleft⟩
      · exact .inl ⟨rfl, rfl, hle⟩
      · exact .inr ⟨rfl, rfl, hleft.skip_le, hleft⟩
    by_cases hroot : pg = pRoot
    · obtain ⟨t', l, r, heq, hsizes, hown, hleft, hright, hnext, hsame⟩ := btRoot_pages h hsplit
      rw [if_pos hroot]
      refine ⟨t', _, m, heq, hsizes, ?_, hleft, hright, fun _ => hnext, ?_, h1, by omega,
        fun hne => absurd hroot hne, hside', hroomat _ ?_⟩
      · rw [kept, if_pos hroot]
        exact hown
      · rw [kept, if_pos hroot]
        exact fun q hq => .of_eq (hsame q hq)
      · rw [Halves.page]
        cases inLeft with
        | false => exact hright
        | true => exact hleft
    · obtain ⟨t', r, heq, hsizes, hown, hleft, hright, hnext, hsame⟩ :=
        btPage_pages h (fun hl => hsorted ⟨hroot, hl⟩) hsplit
      rw [if_neg hroot]
      refine ⟨t', _, m, heq, hsizes, ?_, hleft, hright, fun hlast => hnext.trans hlast, ?_, h1, by omega,
        fun _ => rfl, hside', hroomat _ ?_⟩
      · rw [kept, if_neg hroot]
        exact hown
      · rw [kept, if_neg hroot]
        exact hsame
      · rw [Halves.page]
        cases inLeft with
        | false => exact hright
        | true => exact hleft

end Bsd386.Db.Btree
