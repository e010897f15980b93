import Bsd386.Db.Btree.Page
import Mathlib.Data.List.Nodup

/-!
# Pages in use

The pages that a database uses are pairwise different, and different from those on the free list: so a new
page is none of them, and writing to one leaves the others.
-/

namespace Bsd386.Db.Btree

open Function List

variable {α β : Type}
  {n pg : ℕ} {c own : List ℕ} {bs : List UInt8}

/-! ## The free list -/

/-- The pages on the free list, linked by `nextpg`. -/
def FreeList (pages : ℕ → Page α β) : ℕ → List ℕ → Prop
  | pg, [] => pg = 0
  | pg, p :: fl => pg = p ∧ FreeList pages (pages p).nextpg fl

theorem FreeList.congr {pages pages' : ℕ → Page α β} {fl : List ℕ} (h : FreeList pages pg fl)
    (hsame : ∀ p ∈ fl, (pages' p).nextpg = (pages p).nextpg) : FreeList pages' pg fl := by
  induction fl generalizing pg with
  | nil => exact h
  | cons p fl ih =>
    obtain ⟨hpg, hrest⟩ := h
    refine ⟨hpg, ?_⟩
    rw [hsame p mem_cons_self]
    exact ih hrest fun q hq => hsame q (mem_cons_of_mem p hq)

/-- The pages `own` are in use: they and the free ones are different pages that exist. -/
def Owned (t : Tree α β) (own : List ℕ) : Prop :=
  ∃ fl, FreeList t.pages t.free fl ∧ (own ++ fl).Nodup ∧ ∀ p ∈ own ++ fl, 0 < p ∧ p < t.npages

theorem Owned.perm {t : Tree α β} {own' : List ℕ} (h : Owned t own) (hperm : own'.Perm own) :
    Owned t own' := by
  obtain ⟨fl, hfl, hnodup, hbound⟩ := h
  have happ : (own' ++ fl).Perm (own ++ fl) := hperm.append_right fl
  exact ⟨fl, hfl, happ.symm.nodup hnodup, fun p hp => hbound p (happ.subset hp)⟩

theorem Owned.nodup {t : Tree α β} (h : Owned t own) : own.Nodup := by
  obtain ⟨fl, -, hnodup, -⟩ := h
  exact (nodup_append.mp hnodup).1

theorem Owned.bounds {t : Tree α β} (h : Owned t own) {p : ℕ} (hp : p ∈ own) :
    0 < p ∧ p < t.npages := by
  obtain ⟨fl, -, -, hbound⟩ := h
  exact hbound p (mem_append_left fl hp)

theorem Owned.left {t : Tree α β} (h : Owned t (own ++ c)) : Owned t own := by
  obtain ⟨fl, hfl, hnodup, hbound⟩ := h
  have hsub : (own ++ fl).Sublist (own ++ c ++ fl) := (sublist_append_left own c).append_right fl
  exact ⟨fl, hfl, hsub.nodup hnodup, fun p hp => hbound p (hsub.subset hp)⟩

theorem Owned.length_lt {t : Tree α β} (h : Owned t own) (hpos : 0 < t.npages) :
    own.length < t.npages := by
  have hsub : own ⊆ range' 1 (t.npages - 1) := by
    intro p hp
    have hbound := h.bounds hp
    rw [mem_range'_1]
    omega
  have hle := List.Nodup.length_le_of_subset h.nodup hsub
  rw [length_range'] at hle
  omega

theorem Owned.set {t : Tree α β} (h : Owned t own) {p : Page α β}
    (hpg : pg ∈ own ∨ p.nextpg = (t.pages pg).nextpg) : Owned (t.set pg p) own := by
  obtain ⟨fl, hfl, hnodup, hbound⟩ := h
  refine ⟨fl, hfl.congr fun q hq => ?_, hnodup, hbound⟩
  rw [Tree.set]
  dsimp only
  by_cases heq : q = pg
  · rw [heq, update_self]
    refine hpg.resolve_left fun hmem => ?_
    exact (nodup_append.mp hnodup).2.2 pg hmem q hq heq.symm
  · rw [update_of_ne heq]

theorem Owned.btNew {t : Tree α β} (h : Owned t own) (hpos : 0 < t.npages) :
    Owned (btNew t).2 ((btNew t).1 :: own) ∧ (btNew t).2.pages = t.pages := by
  obtain ⟨fl, hfl, hnodup, hbound⟩ := h
  rw [Btree.btNew]
  by_cases h0 : t.free = 0
  · rw [if_neg (by simpa using h0)]
    refine ⟨⟨fl, hfl, ?_, fun p hp => ?_⟩, rfl⟩
    · refine nodup_cons.mpr ⟨fun hmem => ?_, hnodup⟩
      have := hbound _ hmem
      omega
    · dsimp only
      rcases mem_cons.mp hp with rfl | hp
      · dsimp only
        omega
      · have := hbound p hp
        omega
  · rw [if_pos h0]
    cases fl with
    | nil => exact absurd hfl h0
    | cons p fl =>
      obtain ⟨hpg, hrest⟩ := hfl
      rw [hpg]
      have hperm : (p :: own ++ fl).Perm (own ++ p :: fl) := perm_middle.symm
      exact ⟨⟨fl, hrest, hperm.symm.nodup hnodup, fun q hq => hbound q (hperm.subset hq)⟩, rfl⟩

theorem Owned.btFree {t : Tree α β} (h : Owned t (pg :: own)) :
    Owned (btFree t pg) own := by
  obtain ⟨fl, hfl, hnodup, hbound⟩ := h
  have hperm : (own ++ pg :: fl).Perm (pg :: own ++ fl) := perm_middle
  refine ⟨pg :: fl, ⟨rfl, ?_⟩, hperm.symm.nodup hnodup, fun p hp => hbound p (hperm.subset hp)⟩
  rw [Btree.btFree, Tree.set]
  dsimp only
  rw [update_self]
  refine hfl.congr fun q hq => ?_
  rw [update_of_ne]
  rintro rfl
  exact (nodup_cons.mp hnodup).1 (mem_append_right own hq)

/-! ## Overflow pages -/

/-- The pages `c` are a chain of overflow pages with the bytes `bs`. -/
def Chain (pages : ℕ → Page α β) (plen : ℕ) : List ℕ → List UInt8 → Prop
  | [], _ => False
  | [p], bs => (pages p).body = .overflow bs ∧ bs.length ≤ plen
  | p :: q :: c, bs => (pages p).body = .overflow (bs.take plen) ∧ plen < bs.length ∧
      (pages p).nextpg = q ∧ Chain pages plen (q :: c) (bs.drop plen)

theorem Chain.congr {pages pages' : ℕ → Page α β} {plen : ℕ}
    (h : Chain pages plen c bs)
    (hsame : ∀ p ∈ c, (pages' p).nextpg = (pages p).nextpg ∧ (pages' p).body = (pages p).body) :
    Chain pages' plen c bs := by
  induction c generalizing bs with
  | nil => exact h
  | cons p c ih =>
    cases c with
    | nil =>
      obtain ⟨hbody, hlen⟩ := h
      exact ⟨(hsame p mem_cons_self).2.trans hbody, hlen⟩
    | cons q c =>
      obtain ⟨hbody, hlen, hnext, hrest⟩ := h
      obtain ⟨hn, hb⟩ := hsame p mem_cons_self
      exact ⟨hb.trans hbody, hlen, hn.trans hnext,
        ih hrest fun q hq => hsame q (mem_cons_of_mem p hq)⟩

/-- What stays the same when pages are written. -/
structure SameSizes (t t' : Tree α β) : Prop where
  psize : t'.psize = t.psize
  ovflsize : t'.ovflsize = t.ovflsize
  npages : t.npages ≤ t'.npages

namespace SameSizes

theorem refl (t : Tree α β) : SameSizes t t := ⟨rfl, rfl, Nat.le_refl _⟩

theorem trans {t t' t'' : Tree α β} (h : SameSizes t t') (h' : SameSizes t' t'') : SameSizes t t'' :=
  ⟨h'.psize.trans h.psize, h'.ovflsize.trans h.ovflsize, Nat.le_trans h.npages h'.npages⟩

theorem set (t : Tree α β) (pg : ℕ) (p : Page α β) : SameSizes t (t.set pg p) :=
  ⟨rfl, rfl, Nat.le_refl _⟩

theorem btNew (t : Tree α β) : SameSizes t (btNew t).2 := by
  rw [Btree.btNew]
  split
  · exact ⟨rfl, rfl, Nat.le_refl _⟩
  · exact ⟨rfl, rfl, Nat.le_succ _⟩

theorem btFree (t : Tree α β) (pg : ℕ) : SameSizes t (btFree t pg) := ⟨rfl, rfl, Nat.le_refl _⟩

theorem plen {t t' : Tree α β} (h : SameSizes t t') : t'.plen = t.plen := by
  rw [Tree.plen, Tree.plen, h.psize]

end SameSizes

theorem ovflPage_spec {t : Tree α β} (h : Owned t own) (hpos : 0 < t.npages)
    {last : Option ℕ} (hlast : ∀ l ∈ last, l ∈ own) (bs : List UInt8) :
    ∃ npg t', ovflPage t last bs = (npg, t') ∧ Owned t' (npg :: own) ∧ SameSizes t t' ∧
      t'.pages npg = ⟨0, 0, false, .overflow (bs.take t.plen)⟩ ∧
      (∀ q ∈ own, q ∉ last → t'.pages q = t.pages q) ∧
      ∀ l ∈ last, t'.pages l = { t.pages l with nextpg := npg } := by
  obtain ⟨hown, hpages⟩ := h.btNew hpos
  have hsizes := SameSizes.btNew t
  rw [ovflPage]
  generalize Btree.btNew t = new at hown hpages hsizes ⊢
  obtain ⟨npg, t1⟩ := new
  dsimp only at hown hpages hsizes ⊢
  have hnew : npg ∉ own := (nodup_cons.mp hown.nodup).1
  rw [hsizes.plen]
  cases last with
  | none =>
    refine ⟨npg, _, rfl, hown.set (.inl mem_cons_self), hsizes.trans (.set _ _ _),
      update_self _ _ _, fun q hq _ => ?_, fun l hl => nomatch hl⟩
    rw [← hpages]
    exact update_of_ne (fun heq : q = npg => hnew (heq ▸ hq)) _ _
  | some l =>
    have hl := hlast l rfl
    have hne : l ≠ npg := fun heq => hnew (heq ▸ hl)
    refine ⟨npg, _, rfl, (hown.set (.inl mem_cons_self)).set (.inl (mem_cons_of_mem npg hl)),
      (hsizes.trans (.set _ _ _)).trans (.set _ _ _), ?_, fun q hq hql => ?_, fun l' hl' => ?_⟩
    · exact (update_of_ne hne.symm _ _).trans (update_self _ _ _)
    · rw [← hpages]
      have hq1 : q ≠ l := fun heq => hql (by rw [heq]; rfl)
      exact (update_of_ne hq1 _ _).trans
        (update_of_ne (fun heq : q = npg => hnew (heq ▸ hq)) _ _)
    · obtain rfl : l = l' := Option.some.inj hl'
      rw [← hpages]
      refine (update_self _ _ _).trans ?_
      rw [Tree.set]
      dsimp only
      rw [update_of_ne hne]

theorem ovflPutLoop_spec {t : Tree α β} (h : Owned t own) (hpos : 0 < t.npages)
    (hplen : 0 < t.plen) {last : Option ℕ} (hlast : ∀ l ∈ last, l ∈ own)
    (hn : bs.length < n) :
    ∃ pg c t', ovflPutLoop n last bs t = (pg, t') ∧ Owned t' (c ++ own) ∧ SameSizes t t' ∧
      c.head? = some pg ∧ Chain t'.pages t.plen c bs ∧ (∀ q ∈ c, (t'.pages q).preserve = false) ∧
      (∀ q ∈ own, q ∉ last → t'.pages q = t.pages q) ∧
      ∀ l ∈ last, t'.pages l = { t.pages l with nextpg := pg } := by
  induction n generalizing t own last bs with
  | zero => omega
  | succ n ih =>
    obtain ⟨npg, t1, heq, hown, hsizes, hnpg, hother, hlink⟩ := ovflPage_spec h hpos hlast bs
    have hnew : npg ∉ own := (nodup_cons.mp hown.nodup).1
    rw [ovflPutLoop, heq]
    dsimp only
    rw [hsizes.plen]
    by_cases hle : bs.length ≤ t.plen
    · rw [if_pos hle]
      refine ⟨npg, [npg], t1, rfl, hown, hsizes, rfl, ⟨?_, hle⟩, fun q hq => ?_, hother, hlink⟩
      · rw [hnpg, take_of_length_le hle]
      · rw [mem_singleton.mp hq, hnpg]
    rw [if_neg hle]
    have hnp := hsizes.npages
    have hplen1 := hsizes.plen
    have hdrop : (bs.drop t.plen).length < n := by
      rw [length_drop]
      omega
    have hlast' : ∀ l ∈ some npg, l ∈ npg :: own := by
      intro l hl
      rw [← Option.some.inj hl]
      exact mem_cons_self
    obtain ⟨pg, c, t', hres, hc, hsizes', hhead, hchain, hpres, hsame, hlinked⟩ :=
      ih hown (by omega) (by omega) hlast' hdrop
    have hnext := hlinked npg rfl
    rw [hnpg] at hnext
    have hkeep : ∀ q ∈ own, t'.pages q = t1.pages q := fun q hq =>
      hsame q (mem_cons_of_mem npg hq) fun heq =>
        hnew (by rw [Option.some.inj heq]; exact hq)
    rw [hres]
    refine ⟨npg, npg :: c, t', rfl, hc.perm perm_middle.symm, hsizes.trans hsizes', rfl, ?_,
      ?_, fun q hq hne => (hkeep q hq).trans (hother q hq hne),
      fun l hl => (hkeep l (hlast l hl)).trans (hlink l hl)⟩
    · cases c with
      | nil => exact absurd hhead (by simp)
      | cons q c =>
        have hq : q = pg := Option.some.inj hhead
        rw [hplen1] at hchain
        exact ⟨by rw [hnext], by omega, by rw [hnext, hq], hchain⟩
    · intro q hq
      rcases mem_cons.mp hq with rfl | hq
      · rw [hnext]
      · exact hpres q hq

/-- **Storing an item on overflow pages**: a new chain has it, and no page in use is changed. -/
theorem ovflPut_spec {t : Tree α β} (h : Owned t own) (hpos : 0 < t.npages)
    (hplen : 0 < t.plen) (bs : List UInt8) :
    ∃ pg c t', ovflPut t bs = (pg, t') ∧ Owned t' (c ++ own) ∧ SameSizes t t' ∧
      c.head? = some pg ∧ Chain t'.pages t.plen c bs ∧ (∀ q ∈ c, (t'.pages q).preserve = false) ∧
      ∀ q ∈ own, t'.pages q = t.pages q := by
  have hlast : ∀ l ∈ (none : Option ℕ), l ∈ own := fun l hl => nomatch hl
  obtain ⟨pg, c, t', hres, hown, hsizes, hhead, hchain, hpres, hsame, -⟩ :=
    ovflPutLoop_spec h hpos hplen hlast (Nat.lt_succ_self bs.length)
  exact ⟨pg, c, t', hres, hown, hsizes, hhead, hchain, hpres, fun q hq => hsame q hq fun h => nomatch h⟩

theorem ovflGetLoop_spec {t : Tree α β} (hplen : 0 < t.plen)
    (h : Chain t.pages t.plen c bs) (hpg : c.head? = some pg) (hn : bs.length < n) :
    ovflGetLoop t n pg bs.length = some bs := by
  induction c generalizing bs pg n with
  | nil => exact absurd hpg (by simp)
  | cons p c ih =>
    obtain rfl : p = pg := Option.some.inj hpg
    obtain ⟨n, rfl⟩ : ∃ k, n = k + 1 := ⟨n - 1, by omega⟩
    rw [ovflGetLoop]
    cases c with
    | nil =>
      obtain ⟨hbody, hle⟩ := h
      rw [hbody]
      dsimp only
      rw [Nat.min_eq_left hle, Nat.sub_self, if_pos rfl, take_length]
    | cons q c =>
      obtain ⟨hbody, hlt, hnext, hrest⟩ := h
      rw [hbody]
      dsimp only
      have hlen : (bs.drop t.plen).length = bs.length - t.plen := length_drop
      have hih := ih hrest rfl (n := n) (by omega)
      rw [hlen] at hih
      rw [Nat.min_eq_right (by omega), if_neg (by omega), hnext, hih, Option.map_some, take_take,
        Nat.min_self, take_append_drop]

theorem ovflGet_spec {t : Tree α β} (hplen : 0 < t.plen)
    (h : Chain t.pages t.plen c bs) (hpg : c.head? = some pg) :
    ovflGet t pg bs.length = some bs :=
  ovflGetLoop_spec hplen h hpg (Nat.lt_succ_self _)

theorem ovflDeleteLoop_spec {t : Tree α β} (h : Owned t (c ++ own))
    (hchain : Chain t.pages t.plen c bs) (hpg : c.head? = some pg)
    (hn : c.length ≤ n) :
    Owned (ovflDeleteLoop n pg bs.length t) own ∧
      SameSizes t (ovflDeleteLoop n pg bs.length t) ∧
      ∀ q ∈ own, (ovflDeleteLoop n pg bs.length t).pages q = t.pages q := by
  induction c generalizing t bs pg n with
  | nil => exact absurd hpg (by simp)
  | cons p c ih =>
    obtain rfl : p = pg := Option.some.inj hpg
    obtain ⟨n, rfl⟩ : ∃ k, n = k + 1 := ⟨n - 1, by rw [length_cons] at hn; omega⟩
    obtain ⟨hfresh, -⟩ := nodup_cons.mp h.nodup
    have hfree : Owned (btFree t p) (c ++ own) := h.btFree
    have hother : ∀ q ∈ c ++ own, (btFree t p).pages q = t.pages q := by
      intro q hq
      refine update_of_ne (fun heq => hfresh ?_) _ _
      rw [← heq]
      exact hq
    rw [ovflDeleteLoop]
    rw [(SameSizes.btFree t p).plen]
    cases c with
    | nil =>
      obtain ⟨-, hle⟩ := hchain
      rw [if_pos hle]
      exact ⟨hfree, .btFree t p, hother⟩
    | cons q c =>
      obtain ⟨-, hlt, hnext, hrest⟩ := hchain
      have hrest' : Chain (btFree t p).pages (btFree t p).plen (q :: c) (bs.drop t.plen) := by
        rw [(SameSizes.btFree t p).plen]
        refine hrest.congr fun r hr => ?_
        rw [hother r (mem_append_left own hr)]
        exact ⟨rfl, rfl⟩
      obtain ⟨hown, hsizes, hsame⟩ := ih hfree hrest' rfl (n := n) (by
        rw [length_cons] at hn
        omega)
      rw [length_drop] at hown hsizes hsame
      rw [if_neg (by omega), hnext]
      exact ⟨hown, (SameSizes.btFree t p).trans hsizes,
        fun r hr => (hsame r hr).trans (hother r (mem_append_right _ hr))⟩

theorem Chain.length_le {pages : ℕ → Page α β} {plen : ℕ} (hplen : 0 < plen)
    (h : Chain pages plen c bs) : c.length ≤ bs.length + 1 := by
  induction c generalizing bs with
  | nil => exact Nat.zero_le _
  | cons p c ih =>
    cases c with
    | nil =>
      rw [length_singleton]
      omega
    | cons q c =>
      obtain ⟨-, hlt, -, hrest⟩ := h
      have hle := ih hrest
      rw [length_drop] at hle
      rw [length_cons]
      omega

theorem ovflDelete_spec {t : Tree α β} (h : Owned t (c ++ own))
    (hplen : 0 < t.plen) (hchain : Chain t.pages t.plen c bs) (hpg : c.head? = some pg)
    (hpres : (t.pages pg).preserve = false) :
    Owned (ovflDelete t pg bs.length) own ∧ SameSizes t (ovflDelete t pg bs.length) ∧
      ∀ q ∈ own, (ovflDelete t pg bs.length).pages q = t.pages q := by
  rw [ovflDelete, hpres, if_neg (by simp)]
  exact ovflDeleteLoop_spec h hchain hpg (hchain.length_le hplen)

end Bsd386.Db.Btree
