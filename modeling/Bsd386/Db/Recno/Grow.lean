import Bsd386.Db.Recno.Search

/-!
# Splitting the pages of a recno tree

When a leaf page is split its parent gets an entry for the new page, and may be split for that in turn, up
to the root. The two entries are made anew, with the counts of the two pages.
-/

namespace Bsd386.Db.Recno

open List Btree

variable {h l m n p pg r skip : ℕ} {il ir post pre xs : List RLeaf} {L R es : List RInternal}
  {t : Tree RLeaf RInternal} {around ol or own rest : List ℕ} {e : RInternal} {stack : List (ℕ × ℕ)}
  {w : BitVec 32} {last : Bool} {x : RLeaf}

/-! ## Lists cut in two -/

theorem insertAt_append {γ : Type} (L : List γ) (x : γ) (R : List γ) :
    insertAt L.length x (L ++ R) = L ++ x :: R := by
  rw [insertAt, take_left, drop_left]

theorem insertAt_take {γ : Type} (hn : n ≤ m) (x : γ) (xs : List γ) :
    insertAt n x (xs.take m) = (insertAt n x xs).take (m + 1) ∧
      xs.drop m = (insertAt n x xs).drop (m + 1) := by
  by_cases hlen : n ≤ xs.length
  · obtain ⟨L, R, rfl, rfl⟩ : ∃ L R, xs = L ++ R ∧ n = L.length :=
      ⟨xs.take n, xs.drop n, (take_append_drop n xs).symm, (length_take_of_le hlen).symm⟩
    obtain ⟨k, rfl⟩ : ∃ k, m = L.length + k := ⟨m - L.length, by omega⟩
    rw [insertAt_append, take_length_add_append, insertAt_append, Nat.add_assoc,
      take_length_add_append, drop_length_add_append, drop_length_add_append]
    exact ⟨rfl, rfl⟩
  · rw [insertAt, insertAt, take_take, Nat.min_eq_left hn, take_of_length_le (by omega),
      drop_of_length_le (by rw [length_take]; omega), drop_of_length_le (by omega),
      drop_of_length_le (by omega), take_of_length_le (by simp; omega),
      drop_of_length_le (by simp; omega)]
    exact ⟨rfl, rfl⟩

theorem insertAt_drop {γ : Type} {xs : List γ} (hn : m ≤ n) (hlen : n ≤ xs.length) (x : γ) :
    xs.take m = (insertAt n x xs).take m ∧ insertAt (n - m) x (xs.drop m) = (insertAt n x xs).drop m := by
  obtain ⟨L, R, rfl, rfl⟩ : ∃ L R, xs = L ++ R ∧ m = L.length :=
    ⟨xs.take m, xs.drop m, (take_append_drop m xs).symm,
      (length_take_of_le (Nat.le_trans hn hlen)).symm⟩
  obtain ⟨k, rfl⟩ : ∃ k, n = L.length + k := ⟨n - L.length, by omega⟩
  have hins : insertAt (L.length + k) x (L ++ R) = L ++ insertAt k x R := by
    rw [insertAt, take_length_add_append, drop_length_add_append, insertAt, append_assoc]
  rw [hins, take_left, take_left, drop_left, drop_left, Nat.add_sub_cancel_left]
  exact ⟨rfl, rfl⟩

@[simp] theorem length_insertAt {γ : Type} (n : ℕ) (x : γ) (xs : List γ) :
    (insertAt n x xs).length = xs.length + 1 := by
  rw [insertAt, length_append, length_cons, length_take, length_drop]
  omega

/-! ## A parent -/

theorem sumTo_internal (hn : n ≤ es.length) :
    sumTo (recLayout.sizes (.internal es)) n = 8 * n := by
  have htake := recLayout.used_take (.internal es) (m := n)
    (by rw [recLayout.sizes_length]; exact Nat.le_trans hn (Nat.le_add_left _ _))
  rw [Body.take, used_internal, length_take_of_le hn] at htake
  omega

theorem leftEnd_internal {full : ℕ} (hfull : 492 ≤ full)
    (hno : full < 10 * es.length + 10)
    (h : LeftEnd full (recLayout.sizes (.internal es)) skip nrinternal m) : m < es.length := by
  obtain ⟨hskip, hm, hbefore, hlast, -⟩ := h
  have hlen : (recLayout.sizes (.internal es)).length = es.length := length_map _
  rw [hlen] at hm
  by_contra hge
  obtain rfl : m = es.length := by omega
  rcases hlast with rfl | hlast
  · rw [sumTo_internal (Nat.le_refl _)] at hbefore
    omega
  · rw [sumTo_internal (Nat.sub_le _ _)] at hlast
    omega

theorem putEntry_spec
    (hbody : (t.pages pg).body = .internal es) (hskip : skip ≤ es.length)
    (hroom : 10 * es.length + 10 ≤ t.psize - btdataoff) (e : RInternal) :
    ∃ t', putEntry recLayout t pg skip e = some t' ∧ Wrote t t' pg (.internal (insertAt skip e es)) := by
  have hbytes : recLayout.internalBytes e = 8 := rfl
  rw [putEntry, Layout.free, hbody, used_internal, hbytes, indxSize]
  rw [if_pos ⟨hskip, by omega⟩]
  exact ⟨_, rfl, .set _ _ _⟩

/-- **The entries of a parent that was split**, when the entry of the left child is changed and that for the
right one is inserted behind it: the two pages have the entries with these, and each has some. -/
theorem insertSplit_spec {t1 : Tree RLeaf RInternal} {v : Halves}
    (hpsize : 512 ≤ t.psize)
    (hbody : (t.pages pg).body = .internal (L ++ e :: R))
    (hno : t.psize - btdataoff < 10 * (L ++ e :: R).length + 10)
    (h : Halved recLayout t pg (L.length + 1) nrinternal own t1 v m) (f : RInternal → RInternal)
    (e' : RInternal) :
    ∃ t2 n, putEntry recLayout
        (if v.skip ≠ 0 then changeEntry t1 v.page (v.skip - 1) f
          else changeEntry t1 v.l ((t1.pages v.l).body.nextindex - 1) f) v.page v.skip e' = some t2 ∧
      1 ≤ n ∧ n < (L ++ f e :: e' :: R).length ∧
      (t2.pages v.l).body = .internal ((L ++ f e :: e' :: R).take n) ∧
      (t2.pages v.r).body = .internal ((L ++ f e :: e' :: R).drop n) ∧
      SameSizes t t2 ∧ Owned t2 (v.l :: v.r :: kept pg own) ∧
      ∀ q ∈ kept pg own, SamePage (t.pages q) (t2.pages q) := by
  have hfull : 492 ≤ t.psize - btdataoff := by
    rw [btdataoff]
    omega
  have hps := h.sizes.psize
  obtain ⟨hl, hr⟩ := nodup_cons.mp h.owned.nodup
  have hr := (nodup_cons.mp hr).1
  have hne : v.r ≠ v.l := fun heq => hl (heq ▸ mem_cons_self)
  have hlk : v.l ∉ kept pg own := fun hmem => hl (mem_cons_of_mem _ hmem)
  have hleft := h.left
  have hright := h.right
  have hroom := h.room
  rw [hbody] at hleft hright
  rw [Body.take] at hleft
  rw [Body.drop] at hright
  have hlen : (L ++ e :: R).length = L.length + R.length + 1 := by simp [Nat.add_assoc]
  have hlen' : (L ++ f e :: e' :: R).length = L.length + R.length + 2 := by simp [Nat.add_assoc]
  rcases h.side with ⟨hin, hskip, hle⟩ | ⟨hin, hskip, hle, hend⟩
  · have hpage : v.page = v.r := by rw [Halves.page, hin, if_neg Bool.false_ne_true]
    rw [hpage, hright, used_internal, length_drop] at hroom
    rw [hpage, hskip]
    have hnr : nrinternal = 8 := rfl
    have hix : indxSize = 2 := rfl
    by_cases hzero : L.length + 1 - m = 0
    · obtain rfl : m = L.length + 1 := by omega
      -- the entry of the left child is the last one of the left page
      have hL : (L ++ e :: R).take (L.length + 1) = L ++ e :: [] := take_length_add_append 1
      have hR : (L ++ e :: R).drop (L.length + 1) = R := drop_length_add_append 1
      rw [hL] at hleft
      rw [hR] at hright
      have hlast : (t1.pages v.l).body.nextindex - 1 = L.length := by
        rw [hleft]
        simp [Body.nextindex, Body.items, Body.entries]
      have hw := changeEntry_spec hleft hlast f
      rw [hzero, if_neg (by simp)]
      generalize changeEntry t1 v.l ((t1.pages v.l).body.nextindex - 1) f = t2 at hw ⊢
      have hps2 := hw.sizes.psize
      have hbody2 : (t2.pages v.r).body = .internal R := by rw [hw.other _ hne, hright]
      obtain ⟨t3, hput, hw3⟩ := putEntry_spec hbody2 (Nat.zero_le _) (by omega) e'
      refine ⟨t3, L.length + 1, hput, by omega, by omega, ?_, ?_, (h.sizes.trans hw.sizes).trans hw3.sizes,
        hw3.owned _ (by simp) (hw.owned _ (by simp) h.owned), fun q hq => ?_⟩
      · rw [hw3.other _ hne.symm, hw.body, take_length_add_append]
        rfl
      · rw [hw3.body]
        simp [insertAt]
      · rw [hw3.keep hr q hq, hw.keep hlk q hq]
        exact h.same q hq
    · obtain ⟨L1, L2, rfl, rfl⟩ : ∃ L1 L2, L = L1 ++ L2 ∧ m = L1.length :=
        ⟨L.take m, L.drop m, (take_append_drop m L).symm,
          (length_take_of_le (by omega)).symm⟩
      rw [append_assoc, drop_left] at hright
      rw [append_assoc, take_left] at hleft
      have hidx : (L1 ++ L2).length + 1 - L1.length = L2.length + 1 := by simp; omega
      have hw := changeEntry_spec hright (Nat.add_sub_cancel L2.length 1) f
      rw [hidx, if_pos (Nat.succ_ne_zero _)]
      generalize changeEntry t1 v.r (L2.length + 1 - 1) f = t2 at hw ⊢
      have hps2 := hw.sizes.psize
      have hlen2 : (L2 ++ f e :: R).length = L2.length + R.length + 1 := by simp [Nat.add_assoc]
      obtain ⟨t3, hput, hw3⟩ := putEntry_spec hw.body (by omega : L2.length + 1 ≤ _) (by omega) e'
      have hins : insertAt (L2.length + 1) e' (L2 ++ f e :: R) = L2 ++ f e :: e' :: R := by
        simpa using insertAt_append (L2 ++ [f e]) e' R
      rw [hins] at hw3
      refine ⟨t3, L1.length, hput, h.pos, by omega, ?_, ?_, (h.sizes.trans hw.sizes).trans hw3.sizes,
        hw3.owned _ (by simp) (hw.owned _ (by simp) h.owned), fun q hq => ?_⟩
      · rw [hw3.other _ hne.symm, hw.other _ hne.symm, hleft, append_assoc, take_left]
      · rw [hw3.body, append_assoc, drop_left]
      · rw [hw3.keep hr q hq, hw.keep hr q hq]
        exact h.same q hq
  · have hpage : v.page = v.l := by rw [Halves.page, hin, if_pos rfl]
    rw [hbody] at hend
    have hm := leftEnd_internal hfull hno hend
    obtain ⟨k, rfl⟩ : ∃ k, m = L.length + (1 + k) := ⟨m - L.length - 1, by omega⟩
    rw [take_length_add_append, Nat.add_comm 1, take_succ_cons] at hleft
    rw [drop_length_add_append, Nat.add_comm 1, drop_succ_cons] at hright
    rw [hpage, hleft, used_internal] at hroom
    rw [hpage, hskip]
    have hw := changeEntry_spec hleft (Nat.add_sub_cancel L.length 1) f
    rw [if_pos (Nat.succ_ne_zero _)]
    generalize changeEntry t1 v.l (L.length + 1 - 1) f = t2 at hw ⊢
    have hps2 := hw.sizes.psize
    have hnr : nrinternal = 8 := rfl
    have hix : indxSize = 2 := rfl
    have hlen2 : (L ++ f e :: R.take k).length = (L ++ e :: R.take k).length := by simp
    have hlen3 : (L ++ e :: R.take k).length = L.length + (R.take k).length + 1 := by simp [Nat.add_assoc]
    obtain ⟨t3, hput, hw3⟩ := putEntry_spec hw.body (by omega : L.length + 1 ≤ _) (by omega) e'
    have hins : insertAt (L.length + 1) e' (L ++ f e :: R.take k) = L ++ f e :: e' :: R.take k := by
      simpa using insertAt_append (L ++ [f e]) e' (R.take k)
    rw [hins] at hw3
    refine ⟨t3, L.length + (k + 1 + 1), hput, by omega, by omega, ?_, ?_,
      (h.sizes.trans hw.sizes).trans hw3.sizes,
      hw3.owned _ (by simp) (hw.owned _ (by simp) h.owned), fun q hq => ?_⟩
    · rw [hw3.body, take_length_add_append, take_succ_cons, take_succ_cons]
    · rw [hw3.other _ hne, hw.other _ hne, hright, drop_length_add_append, drop_succ_cons,
        drop_succ_cons]
    · rw [hw3.keep hlk q hq, hw.keep hlk q hq]
      exact h.same q hq

/-! ## The root -/

/-- The pages make a tree of the height `H` with the items, and there are others in use. -/
def IsTree (t : Tree RLeaf RInternal) (H : ℕ) (all : List RLeaf) (rest : List ℕ) : Prop :=
  ∃ own, Below t H pRoot true all own ∧ Owned t (own ++ rest)

/-- What a change to the tree leaves: the page size, and the other pages in use. -/
structure Keeps (t t' : Tree RLeaf RInternal) (rest : List ℕ) : Prop where
  sizes : SameSizes t t'
  same : ∀ q ∈ rest, SamePage (t.pages q) (t'.pages q)

theorem Keeps.trans {t' t'' : Tree RLeaf RInternal} (h : Keeps t t' rest)
    (h' : Keeps t' t'' rest) : Keeps t t'' rest :=
  ⟨h.sizes.trans h'.sizes, fun q hq => (h.same q hq).trans (h'.same q hq)⟩

theorem Above.isTree
    {items : List RLeaf}
    (ha : Above t stack h pg w last pre post around) (hb : Below t h pg last items own)
    (hw : last = false → w = BitVec.ofNat 32 items.length) (hown : Owned t (around ++ own ++ rest)) :
    IsTree t (h + stack.length) (pre ++ items ++ post) rest := by
  obtain ⟨all, hall, hperm⟩ := ha.close hb hw
  exact ⟨all, hall, hown.perm (hperm.append_right rest)⟩

theorem newRoot_spec
    (hpsize : 512 ≤ t.psize) (hl : Below t h l false il ol) (hr : Below t h r true ir or)
    (hown : Owned t (ol ++ or ++ pRoot :: rest)) :
    ∃ t', newRoot recKind t l r = some t' ∧ IsTree t' (h + 1) (il ++ ir) rest ∧ Keeps t t' rest := by
  have hfull : 20 ≤ t.psize - btdataoff := by
    rw [btdataoff]
    omega
  have hperm : (pRoot :: (ol ++ or ++ rest)).Perm (ol ++ or ++ pRoot :: rest) := perm_middle.symm
  have hown' := hown.perm hperm
  have hfresh := (nodup_cons.mp hown'.nodup).1
  simp only [mem_append, not_or] at hfresh
  obtain ⟨⟨hfl, hfr⟩, hfrest⟩ := hfresh
  have hused : recKind.layout.used (.internal [entryFor t l, entryFor t r]) = 20 := used_internal _
  have hroot : recKind.root t l r = some [entryFor t l, entryFor t r] := rfl
  rw [newRoot, hroot]
  dsimp only
  rw [if_pos (by rw [hused]; exact hfull)]
  have hw := Wrote.set t pRoot (.internal [entryFor t l, entryFor t r])
  have hdone : ∀ t : Tree RLeaf RInternal, recKind.done t r = t := fun _ => rfl
  rw [hdone]
  generalize t.set pRoot { t.pages pRoot with body := .internal [entryFor t l, entryFor t r] } = t' at hw ⊢
  refine ⟨t', rfl, ⟨pRoot :: ownOf [⟨entryFor t l, il, ol⟩, ⟨entryFor t r, ir, or⟩],
    ⟨[⟨entryFor t l, il, ol⟩, ⟨entryFor t r, ir, or⟩], cons_ne_nil _ _, hw.body, ?_, by simp, rfl,
      ⟨?_, fun _ => hl.childCount⟩, ⟨?_, fun hfalse => absurd hfalse (by simp)⟩, trivial⟩, ?_⟩,
    hw.sizes, fun q hq => .of_eq (hw.keep hfrest q hq)⟩
  · rw [fits_internal, hw.sizes.psize]
    exact hfull
  · exact hl.congr hw.sizes.psize fun q hq => .of_eq (hw.keep hfl q hq)
  · exact hr.congr hw.sizes.psize fun q hq => .of_eq (hw.keep hfr q hq)
  · simpa using hw.owned _ (by simp) hown'

/-! ## Up the stack -/

theorem parentStep_recno (t : Tree RLeaf RInternal) (pg index l r : ℕ) :
    parentStep recKind t pg index l r =
      if recLayout.free t.psize (t.pages pg).body < nrinternal + indxSize then
        match splitPage recLayout t pg (index + 1) nrinternal with
        | none => none
        | some (t1, v) =>
          match putEntry recLayout
              (if v.skip ≠ 0 then changeEntry t1 v.page (v.skip - 1) fun _ => entryFor t1 l
                else changeEntry t1 v.l ((t1.pages v.l).body.nextindex - 1) fun _ => entryFor t1 l)
              v.page v.skip (entryFor t r) with
          | none => none
          | some t2 =>
            if pg = pRoot then (newRoot recKind t2 v.l v.r).map fun t => (t, some (v.l, v.r))
            else some (t2, some (v.l, v.r))
      else
        (putEntry recLayout (changeEntry t pg index fun _ => entryFor t l) pg (index + 1)
          (entryFor t r)).map fun t => (t, none) := by
  have hbytes : recLayout.internalBytes (entryFor t r) = nrinternal := rfl
  simp only [parentStep, recKind, hbytes, Nat.add_sub_cancel]
  rcases splitPage recLayout t pg (index + 1) nrinternal with _ | ⟨t1, v⟩
  · rfl
  dsimp only
  rcases putEntry recLayout
    (if v.skip ≠ 0 then changeEntry t1 v.page (v.skip - 1) fun _ => entryFor t1 l
      else changeEntry t1 v.l ((t1.pages v.l).body.nextindex - 1) fun _ => entryFor t1 l)
    v.page v.skip (entryFor t r) with _ | t2
  · rfl
  · rfl

theorem Frame.pair {lastP : Bool} {L R : List Kid}
    (hf : Frame t h p pg w lastP L e R)
    (hl : Below t h l false il ol) (hr : Below t h r (lastP && R.isEmpty) ir or)
    (hw : (lastP && R.isEmpty) = false → w = BitVec.ofNat 32 (il.length + ir.length)) :
    ∃ ks, ks.map Kid.entry = L.map Kid.entry ++ entryFor t l :: entryFor t r :: R.map Kid.entry ∧
      Kids (Below t h) lastP ks ∧ itemsOf ks = itemsOf L ++ (il ++ ir) ++ itemsOf R ∧
      (ownOf ks).Perm (ownOf L ++ ownOf R ++ (ol ++ or)) ∧
      (lastP = false → BitVec.ofNat 32 (itemsOf L).length + w + BitVec.ofNat 32 (itemsOf R).length =
        BitVec.ofNat 32 (itemsOf ks).length) := by
  have hitems : itemsOf (L ++ ⟨entryFor t l, il, ol⟩ :: ⟨entryFor t r, ir, or⟩ :: R) =
      itemsOf L ++ (il ++ ir) ++ itemsOf R := by simp
  refine ⟨L ++ ⟨entryFor t l, il, ol⟩ :: ⟨entryFor t r, ir, or⟩ :: R, ?_, ?_, hitems, ?_, fun hlast => ?_⟩
  · rw [map_append, map_cons, map_cons]
  · refine Kids.append.mpr ⟨?_, ⟨?_, fun _ => hl.childCount⟩, ⟨hr, fun hlast => ?_⟩, hf.right⟩
    · rw [isEmpty_cons, Bool.and_false]
      exact hf.left
    · rw [isEmpty_cons, Bool.and_false]
      exact hl
    · rw [hlast] at hr
      exact hr.childCount
  · rw [perm_iff_count]
    intro a
    simp only [ownOf_append, ownOf_cons, count_append]
    omega
  · rw [hw (by rw [hlast]; rfl), hitems, length_append, length_append, length_append,
      BitVec.ofNat_add _ (itemsOf R).length, BitVec.ofNat_add (itemsOf L).length]

theorem parentStep_fits
    (hbody : (t.pages p).body = .internal (L ++ e :: R))
    (hroom : ¬ recLayout.free t.psize (t.pages p).body < nrinternal + indxSize) :
    ∃ t', parentStep recKind t p L.length l r = some (t', none) ∧
      Wrote t t' p (.internal (L ++ entryFor t l :: entryFor t r :: R)) ∧
      Fits t (.internal (L ++ entryFor t l :: entryFor t r :: R)) := by
  have hnr : nrinternal = 8 := rfl
  have hlen : (L ++ e :: R).length = L.length + R.length + 1 := by simp [Nat.add_assoc]
  have hlen' : (L ++ entryFor t l :: R).length = L.length + R.length + 1 := by simp [Nat.add_assoc]
  rw [parentStep_recno, if_neg hroom]
  rw [Layout.free, hbody, used_internal, hnr, indxSize] at hroom
  have hw := changeEntry_spec hbody rfl fun _ => entryFor t l
  generalize changeEntry t p L.length (fun _ => entryFor t l) = t1 at hw ⊢
  have hps := hw.sizes.psize
  obtain ⟨t2, hput, hw2⟩ := putEntry_spec hw.body (by omega : L.length + 1 ≤ _) (by omega) (entryFor t r)
  have hins : insertAt (L.length + 1) (entryFor t r) (L ++ entryFor t l :: R) =
      L ++ entryFor t l :: entryFor t r :: R := by
    simpa using insertAt_append (L ++ [entryFor t l]) (entryFor t r) R
  rw [hput, Option.map_some]
  refine ⟨t2, rfl, hw.trans (hins ▸ hw2), fits_internal.mpr ?_⟩
  simp
  omega

theorem parentStep_split
    (hpsize : 512 ≤ t.psize) (hbody : (t.pages p).body = .internal (L ++ e :: R))
    (hfits : Fits t (.internal (L ++ e :: R)))
    (hno : recLayout.free t.psize (t.pages p).body < nrinternal + indxSize) (hown : Owned t (p :: own))
    (hl : l ∈ own) :
    ∃ t' l' r' n, 
      parentStep recKind t p L.length l r = 
        (if p = pRoot then (newRoot recKind t' l' r').map fun t => (t, some (l', r'))
          else some (t', some (l', r'))) ∧
      1 ≤ n ∧ n < (L ++ entryFor t l :: entryFor t r :: R).length ∧
      (t'.pages l').body = .internal ((L ++ entryFor t l :: entryFor t r :: R).take n) ∧
      (t'.pages r').body = .internal ((L ++ entryFor t l :: entryFor t r :: R).drop n) ∧
      SameSizes t t' ∧ Owned t' (l' :: r' :: kept p own) ∧
      ∀ q ∈ kept p own, SamePage (t.pages q) (t'.pages q) := by
  have hfull : 492 ≤ t.psize - btdataoff := by
    rw [btdataoff]
    omega
  have hnr : nrinternal = 8 := rfl
  have hfits' := fits_internal.mp hfits
  have hlen : (recLayout.sizes (.internal (L ++ e :: R))).length = (L ++ e :: R).length :=
    length_map _
  have hnext : (Body.internal (L ++ e :: R) : Body RLeaf RInternal).nextindex = (L ++ e :: R).length :=
    Nat.zero_add _
  have hno' := hno
  rw [Layout.free, hbody, used_internal, hnr, indxSize] at hno'
  obtain ⟨t1, v, m, hsplit, hhalved⟩ := splitPage_spec recLayout (L.length + 1) nrinternal hown hpsize
    (by
      rw [hbody]
      intro x hx
      obtain ⟨y, -, rfl⟩ := mem_map.mp hx
      exact ⟨Nat.le_refl 8, by show 8 < _; omega, rfl⟩)
    (by omega) (by rw [hbody, hnext]; simp) (by rw [hbody, used_internal]; exact hfits') hno
    (fun _ m hend => by
      rw [hbody] at hend ⊢
      have hm := leftEnd_internal hfull (by omega) hend
      rw [sumTo_internal (by omega), hnr, indxSize]
      omega)
  obtain ⟨t2, n, hput, hn⟩ := insertSplit_spec hpsize hbody (by omega) hhalved
    (fun _ => entryFor t1 l) (entryFor t r)
  have hmem : l ∈ kept p own := by
    rw [kept]
    split
    · exact mem_cons_of_mem p hl
    · exact hl
  have hsame : entryFor t1 l = entryFor t l := by
    rw [entryFor, entryFor, (hhalved.same l hmem).body]
  rw [parentStep_recno, if_pos hno, hsplit]
  dsimp only
  rw [hput]
  rw [hsame] at hn
  exact ⟨t2, v.l, v.r, n, rfl, hn⟩

theorem Kids.halves {t' : Tree RLeaf RInternal} {ks : List Kid}
    (hks : Kids (Below t h) last ks) (h1 : 1 ≤ n) (hn : n < ks.length)
    (hfits : 10 * ks.length ≤ t.psize - btdataoff + 10) (hpsize : t'.psize = t.psize)
    (hl : (t'.pages l).body = .internal ((ks.map Kid.entry).take n))
    (hr : (t'.pages r).body = .internal ((ks.map Kid.entry).drop n))
    (hsame : ∀ q ∈ ownOf ks, SamePage (t.pages q) (t'.pages q)) :
    Below t' (h + 1) l false (itemsOf (ks.take n)) (l :: ownOf (ks.take n)) ∧
      Below t' (h + 1) r last (itemsOf (ks.drop n)) (r :: ownOf (ks.drop n)) := by
  have hkeep := hks.congr hpsize hsame
  rw [← take_append_drop n ks] at hkeep
  obtain ⟨hleft, hright⟩ := Kids.append.mp hkeep
  have hne : ks.drop n ≠ [] := fun hnil => by
    have hlen := congrArg length hnil
    rw [length_drop, length_nil] at hlen
    omega
  have hne' : ks.take n ≠ [] := fun hnil => by
    have hlen := congrArg length hnil
    rw [length_take, length_nil] at hlen
    omega
  rw [isEmpty_eq_false_iff.mpr hne, Bool.and_false] at hleft
  rw [← map_take] at hl
  rw [← map_drop] at hr
  refine ⟨⟨_, hne', hl, ?_, rfl, rfl, hleft⟩, ⟨_, hne, hr, ?_, rfl, rfl, hright⟩⟩
  · rw [fits_internal, hpsize, length_map, length_take]
    omega
  · rw [fits_internal, hpsize, length_map, length_drop]
    omega

/-- **The walk up the stack of parents** after a page was split: the tree has the items of the two pages
where those of the page were. -/
theorem parentLoop_spec (hstack : stack ≠ [])
    (hpsize : 512 ≤ t.psize)
    (ha : Above t stack h pg w last pre post around)
    (hl : Below t h l false il ol) (hr : Below t h r last ir or)
    (hw : last = false → w = BitVec.ofNat 32 (il.length + ir.length))
    (hown : Owned t (around ++ (ol ++ or) ++ rest)) :
    ∃ t' H, parentLoop recKind stack l r t = some t' ∧ IsTree t' H (pre ++ (il ++ ir) ++ post) rest ∧
      Keeps t t' rest ∧ h + stack.length ≤ H := by
  induction stack generalizing t h pg l r w last pre post il ir around ol or with
  | nil => exact absurd rfl hstack
  | cons top stack ih =>
    cases ha with
    | @step h p pg w lastP L e R stack pre post own hframe habove =>
      obtain ⟨ks, hentries, hkids, hitems, hownOf, hweight⟩ := hframe.pair hl hr hw
      have hbody := hframe.body
      have hfits := fits_internal.mp hframe.fits
      have hlen : (L.map Kid.entry ++ e :: R.map Kid.entry).length = L.length + R.length + 1 := by
        simp [Nat.add_assoc]
      have hklen : ks.length = L.length + R.length + 2 := by
        have := congrArg length hentries
        simpa [Nat.add_assoc] using this
      have hperm : (p :: (own ++ ownOf ks ++ rest)).Perm
          (own ++ p :: (ownOf L ++ ownOf R) ++ (ol ++ or) ++ rest) := by
        refine (((hownOf.append_left own).append_right rest).cons p).trans ?_
        rw [perm_iff_count]
        intro a
        simp only [count_append, count_cons]
        omega
      have hown' := hown.perm hperm
      have hfresh := (nodup_cons.mp hown'.nodup).1
      simp only [mem_append, not_or] at hfresh
      obtain ⟨⟨hfo, hfk⟩, hfrest⟩ := hfresh
      have hpre : pre ++ itemsOf L ++ (il ++ ir) ++ (itemsOf R ++ post) =
          pre ++ itemsOf ks ++ post := by
        rw [hitems]
        simp only [append_assoc]
      rw [hpre, parentLoop, ← length_map Kid.entry]
      by_cases hno : recLayout.free t.psize (t.pages p).body < nrinternal + indxSize
      · have hmem : l ∈ own ++ ownOf ks ++ rest :=
          mem_append_left _ (mem_append_right _
            (hownOf.symm.subset (mem_append_right _ (mem_append_left _ hl.mem_own))))
        obtain ⟨t1, l', r', n, hstep, h1, hn, hbl, hbr, hsizes, hown1, hsame⟩ :=
          parentStep_split (r := r) hpsize hbody hframe.fits hno hown' hmem
        have hkept : ∀ q ∈ own ++ ownOf ks ++ rest, q ∈ kept p (own ++ ownOf ks ++ rest) := by
          intro q hq
          rw [kept]
          split
          · exact mem_cons_of_mem p hq
          · exact hq
        rw [← hentries] at hn hbl hbr
        rw [length_map] at hn
        have hsame' : ∀ q ∈ own ++ ownOf ks ++ rest, SamePage (t.pages q) (t1.pages q) :=
          fun q hq => hsame q (hkept q hq)
        obtain ⟨hleft, hright⟩ := hkids.halves h1 hn (by omega) hsizes.psize hbl hbr
          fun q hq => hsame' q (mem_append_left _ (mem_append_right _ hq))
        have hitems' : itemsOf (ks.take n) ++ itemsOf (ks.drop n) = itemsOf ks := by
          rw [← itemsOf_append, take_append_drop]
        have hownOf' : ownOf (ks.take n) ++ ownOf (ks.drop n) = ownOf ks := by
          rw [← ownOf_append, take_append_drop]
        have hkeeps : Keeps t t1 rest := ⟨hsizes, fun q hq => hsame' q (mem_append_right _ hq)⟩
        rw [hstep]
        by_cases hroot : p = pRoot
        · have hnil : stack = [] := by
            by_contra hne
            exact hfo (hroot ▸ habove.root_mem hne)
          subst hnil
          cases habove with
          | root =>
            rw [kept, if_pos hroot, hroot] at hown1
            have hown2 : Owned t1 (l' :: ownOf (ks.take n) ++ r' :: ownOf (ks.drop n) ++
                pRoot :: rest) := by
              refine hown1.perm ?_
              rw [nil_append, ← hownOf', perm_iff_count]
              intro a
              simp only [count_append, count_cons]
              omega
            obtain ⟨t2, hnew, htree, hkeeps'⟩ :=
              newRoot_spec (by rw [hsizes.psize]; exact hpsize) hleft hright hown2
            rw [if_pos hroot, hnew, Option.map_some]
            rw [hitems'] at htree
            exact ⟨t2, _, rfl, by simpa using htree, hkeeps.trans hkeeps', Nat.le_succ _⟩
        · have hne : stack ≠ [] := by
            rintro rfl
            cases habove
            exact hroot rfl
          rw [if_neg hroot]
          rw [kept, if_neg hroot] at hown1
          have hlen' := congrArg length hitems'
          rw [length_append] at hlen'
          obtain ⟨t2, H, hloop, htree, hkeeps', hH⟩ := ih hne (by rw [hsizes.psize]; exact hpsize)
            (habove.congr hsizes.psize fun q hq =>
              hsame' q (mem_append_left _ (mem_append_left _ hq)))
            hleft hright (fun hlast => by rw [hweight hlast, hlen']) (hown1.perm (by
              rw [← hownOf', perm_iff_count]
              intro a
              simp only [count_append, count_cons]
              omega))
          rw [hitems'] at htree
          exact ⟨t2, H, hloop, htree, hkeeps.trans hkeeps', by rw [length_cons]; omega⟩
      · obtain ⟨t1, hstep, hwrote, hfits'⟩ := parentStep_fits (l := l) (r := r) hbody hno
        rw [← hentries] at hwrote hfits'
        have hps := hwrote.sizes.psize
        have hbelow : Below t1 (h + 1) p lastP (itemsOf ks) (p :: ownOf ks) :=
          ⟨ks, fun hnil => by rw [hnil] at hklen; simp at hklen, hwrote.body, hfits'.congr hps, rfl, rfl,
            hkids.congr hps fun q hq => .of_eq (hwrote.keep hfk q hq)⟩
        rw [hstep]
        refine ⟨t1, h + 1 + stack.length, rfl, ?_,
          ⟨hwrote.sizes, fun q hq => .of_eq (hwrote.keep hfrest q hq)⟩, by rw [length_cons]; omega⟩
        refine (habove.congr hps fun q hq => .of_eq (hwrote.keep hfo q hq)).isTree hbelow hweight ?_
        refine (hwrote.owned _ mem_cons_self hown').perm ?_
        rw [perm_iff_count]
        intro a
        simp only [count_append, count_cons]
        omega

/-! ## A leaf page -/

theorem used_leaf (xs : List RLeaf) :
    recLayout.used (.leaf xs) = (xs.map nrleaf).sum + 2 * xs.length := by
  have hnext : (Body.leaf xs : Body RLeaf RInternal).nextindex = xs.length := rfl
  rw [Layout.used, hnext, indxSize, Layout.sizes, map_map]
  rfl

theorem used_insertAt (skip : ℕ) (x : RLeaf) (xs : List RLeaf) :
    recLayout.used (.leaf (insertAt skip x xs)) = recLayout.used (.leaf xs) + nrleaf x + 2 := by
  have hsum : ((xs.take skip).map nrleaf).sum + ((xs.drop skip).map nrleaf).sum = (xs.map nrleaf).sum := by
    rw [← sum_append, ← map_append, take_append_drop]
  rw [used_leaf, used_leaf, length_insertAt, insertAt, map_append, map_cons, sum_append,
    sum_cons]
  omega

theorem mem_insertAt {γ : Type} {x y : γ} {xs : List γ} :
    y ∈ insertAt n x xs ↔ y = x ∨ y ∈ xs := by
  rw [insertAt, mem_append, mem_cons]
  constructor
  · rintro (h | h | h)
    · exact .inr (mem_of_mem_take h)
    · exact .inl h
    · exact .inr (mem_of_mem_drop h)
  · rintro (h | h)
    · exact .inr (.inl h)
    · rw [← take_append_drop n xs, mem_append] at h
      exact h.imp_right .inr

theorem nrleaf_ge (x : RLeaf) : 8 ≤ nrleaf x := by
  cases x with
  | data bs =>
    rw [nrleaf, nrleafdbt, lalign]
    omega
  | bigdata pg size => exact (by decide : 8 ≤ nrleafdbt novflsize)

theorem putLeaf_spec
    (hbody : (t.pages pg).body = .leaf xs) (hskip : skip ≤ xs.length)
    (hroom : recLayout.used (.leaf xs) + nrleaf x + indxSize ≤ t.psize - btdataoff) :
    ∃ t', putLeaf recLayout t pg skip x = some t' ∧ Wrote t t' pg (.leaf (insertAt skip x xs)) := by
  have hbytes : recLayout.leafBytes x = nrleaf x := rfl
  rw [putLeaf, Layout.free, hbody, hbytes]
  rw [if_pos ⟨hskip, by omega⟩]
  exact ⟨_, rfl, .set _ _ _⟩

/-- When the leaf page is split for an item of `ilen` bytes at the index, the item fits on the page it is to
go to. It always does on the right page, and on the new page when the last page of all is split for an item
behind its last one; the root has no such new page. -/
def RoomAt (t : Tree RLeaf RInternal) (pg index : ℕ) (xs : List RLeaf) (ilen : ℕ) : Prop :=
  pg = pRoot ∨ (t.pages pg).nextpg ≠ 0 ∨ index ≠ xs.length →
    t.psize - btdataoff < recLayout.used (.leaf xs) + ilen + indxSize →
      LeftRoom (t.psize - btdataoff) (recLayout.sizes (.leaf xs)) index ilen

theorem splitLeaf_spec {index : ℕ}
    (hpsize : 512 ≤ t.psize) (hbody : (t.pages pg).body = .leaf xs)
    (hfits : Fits t (.leaf xs)) (hx : nrleaf x < (t.psize - btdataoff) / 2) (hindex : index ≤ xs.length)
    (hno : recLayout.free t.psize (t.pages pg).body < nrleaf x + indxSize)
    (hroom : RoomAt t pg index xs (nrleaf x)) (hown : Owned t (pg :: own)) :
    ∃ t1 v t2 n, splitPage recLayout t pg index (nrleaf x) = some (t1, v) ∧
      putLeaf recLayout t1 v.page v.skip x = some t2 ∧
      Below t2 0 v.l false ((insertAt index x xs).take n) [v.l] ∧
      (∀ last, (last = true → (t.pages pg).nextpg = 0) →
        Below t2 0 v.r last ((insertAt index x xs).drop n) [v.r]) ∧
      (pg ≠ pRoot → v.l = pg) ∧ SameSizes t t2 ∧ Owned t2 (v.l :: v.r :: kept pg own) ∧
      ∀ q ∈ kept pg own, SamePage (t.pages q) (t2.pages q) := by
  have hlen : (recLayout.sizes (.leaf xs)).length = xs.length := length_map _
  have hnext : (Body.leaf xs : Body RLeaf RInternal).nextindex = xs.length := rfl
  have hno' := hno
  rw [Layout.free, hbody] at hno'
  obtain ⟨t1, v, m, hsplit, h⟩ := splitPage_spec recLayout index (nrleaf x) hown hpsize
    (by
      rw [hbody]
      intro y hy
      obtain ⟨z, hz, rfl⟩ := mem_map.mp hy
      exact ⟨nrleaf_ge z, hfits.2 z hz, rfl⟩)
    hx (by rw [hbody]; exact hindex) (by rw [hbody]; exact hfits.1) hno
    (fun hcases => by
      rw [hbody, hnext] at hcases
      rw [hbody]
      exact hroom hcases (by rw [indxSize] at hno' ⊢; omega))
  have hps := h.sizes.psize
  obtain ⟨hl, hr⟩ := nodup_cons.mp h.owned.nodup
  have hrk := (nodup_cons.mp hr).1
  have hne : v.r ≠ v.l := fun heq => hl (heq ▸ mem_cons_self)
  have hlk : v.l ∉ kept pg own := fun hmem => hl (mem_cons_of_mem _ hmem)
  have hleft := h.left
  have hright := h.right
  have hpageroom := h.room
  have hm := h.le
  rw [hbody] at hleft hright hm
  have hmlen : m ≤ (recLayout.sizes (.leaf xs)).length := by
    rw [hlen]
    exact hm
  have htake := recLayout.used_take (.leaf xs) hmlen
  have hdrop := recLayout.used_drop (.leaf xs) hmlen
  have hused := hfits.1
  have hbelow : ∀ (t2 : Tree RLeaf RInternal) (q : ℕ) (ys : List RLeaf), t2.psize = t.psize →
      (t2.pages q).body = .leaf ys → (∀ y ∈ ys, y ∈ insertAt index x xs) →
      recLayout.used (.leaf ys) ≤ t.psize - btdataoff → ∀ last,
      (last = true → (t2.pages q).nextpg = 0) → Below t2 0 q last ys [q] := by
    intro t2 q ys hps2 hbody2 hmem hfits2 last hlast
    refine ⟨rfl, hbody2, Fits.congr ⟨hfits2, fun y hy => ?_⟩ hps2, hlast⟩
    rcases mem_insertAt.mp (hmem y hy) with rfl | hy
    · exact hx
    · exact hfits.2 y hy
  rcases h.side with ⟨hin, hskip, hle⟩ | ⟨hin, hskip, hle, -⟩
  · have hpage : v.page = v.r := by rw [Halves.page, hin, if_neg Bool.false_ne_true]
    obtain ⟨hinsl, hinsr⟩ := insertAt_drop hle hindex x
    rw [hpage, hright] at hpageroom
    obtain ⟨t2, hput, hw⟩ := putLeaf_spec hright
      (by rw [length_drop]; omega : index - m ≤ _) (by rw [hps]; exact hpageroom)
    have hps2 := hw.sizes.psize.trans hps
    refine ⟨t1, v, t2, m, hsplit, by rw [hpage, hskip]; exact hput, hbelow t2 _ _ hps2 ?_
        (fun y hy => mem_of_mem_take hy) ?_ _ (fun hl => absurd hl Bool.false_ne_true), fun last hlast =>
        hbelow t2 _ _ hps2 ?_ (fun y hy => mem_of_mem_drop hy) ?_ _
          fun hl => hw.nextpg.trans (h.last (hlast hl)),
      h.nonroot, h.sizes.trans hw.sizes, hw.owned _ (by simp) h.owned,
      fun q hq => by rw [hw.keep hrk q hq]; exact h.same q hq⟩
    · rw [hw.other _ hne.symm, hleft, ← hinsl]
      rfl
    · rw [← hinsl]
      rw [Body.take] at htake
      omega
    · rw [hw.body, hinsr]
    · rw [← hinsr, used_insertAt]
      exact hpageroom
  · have hpage : v.page = v.l := by rw [Halves.page, hin, if_pos rfl]
    obtain ⟨hinsl, hinsr⟩ := insertAt_take hle x xs
    rw [hpage, hleft] at hpageroom
    obtain ⟨t2, hput, hw⟩ := putLeaf_spec hleft
      (by rw [length_take]; omega : index ≤ _) (by rw [hps]; exact hpageroom)
    have hps2 := hw.sizes.psize.trans hps
    refine ⟨t1, v, t2, m + 1, hsplit, by rw [hpage, hskip]; exact hput, hbelow t2 _ _ hps2 ?_
        (fun y hy => mem_of_mem_take hy) ?_ _ (fun hl => absurd hl Bool.false_ne_true), fun last hlast =>
        hbelow t2 _ _ hps2 ?_ (fun y hy => mem_of_mem_drop hy) ?_ _
          fun hl => by rw [hw.other _ hne]; exact h.last (hlast hl),
      h.nonroot, h.sizes.trans hw.sizes, hw.owned _ (by simp) h.owned,
      fun q hq => by rw [hw.keep hlk q hq]; exact h.same q hq⟩
    · rw [hw.body, hinsl]
    · rw [← hinsl, used_insertAt]
      exact hpageroom
    · rw [hw.other _ hne, hright, ← hinsr]
      rfl
    · rw [← hinsr]
      rw [Body.drop] at hdrop
      omega

/-- **An item is put where it belongs**: on its leaf page, or on one of the two pages that this is split
into, with the parents brought up to date. -/
theorem placeItem_spec {b : Recno} {index : ℕ}
    (hpsize : 512 ≤ b.tree.psize)
    (ha : Above b.tree stack 0 pg w last pre post around) (hb : Below b.tree 0 pg last xs [pg])
    (hx : nrleaf x < (b.tree.psize - btdataoff) / 2) (hindex : index ≤ xs.length)
    (hw : last = false → w = BitVec.ofNat 32 (xs.length + 1))
    (hroom : RoomAt b.tree pg index xs (nrleaf x)) (hown : Owned b.tree (around ++ [pg] ++ rest)) :
    ∃ b' H, placeItem b pg index stack x = some b' ∧
      IsTree b'.tree H (pre ++ insertAt index x xs ++ post) rest ∧ Keeps b.tree b'.tree rest ∧
      b'.nrecs = b.nrecs + 1 ∧ stack.length ≤ H := by
  obtain ⟨-, hbody, hfits, hnext⟩ := hb
  have hperm : (pg :: (around ++ rest)).Perm (around ++ [pg] ++ rest) := by
    rw [perm_iff_count]
    intro a
    simp only [count_append, count_cons, count_nil]
    omega
  have hown' := hown.perm hperm
  have hfresh := (nodup_cons.mp hown'.nodup).1
  rw [mem_append, not_or] at hfresh
  obtain ⟨hfa, hfrest⟩ := hfresh
  rw [placeItem]
  by_cases hno : recLayout.free b.tree.psize (b.tree.pages pg).body < nrleaf x + indxSize
  · obtain ⟨t1, v, t2, n, hsplit, hput, hleft, hright, hl, hsizes, hown2, hsame⟩ :=
      splitLeaf_spec hpsize hbody hfits hx hindex hno hroom hown'
    have hpsize2 : 512 ≤ t2.psize := by
      rw [hsizes.psize]
      exact hpsize
    have hitems : (insertAt index x xs).take n ++ (insertAt index x xs).drop n = insertAt index x xs :=
      take_append_drop _ _
    have hkept : ∀ q ∈ around ++ rest, SamePage (b.tree.pages q) (t2.pages q) := by
      intro q hq
      refine hsame q ?_
      rw [kept]
      split
      · exact mem_cons_of_mem pg hq
      · exact hq
    have hkeeps : Keeps b.tree t2 rest := ⟨hsizes, fun q hq => hkept q (mem_append_right _ hq)⟩
    have hlayout : recKind.layout = recLayout := rfl
    have hbytes : recLayout.leafBytes x = nrleaf x := rfl
    simp only [if_pos hno, btSplit, hlayout, hbytes, hsplit, hput]
    by_cases hroot : pg = pRoot
    · have hnil : stack = [] := by
        by_contra hne
        exact hfa (hroot ▸ ha.root_mem hne)
      subst hnil
      cases ha with
      | root =>
        rw [kept, if_pos hroot, hroot] at hown2
        obtain ⟨t3, hnew, htree, hkeeps'⟩ := newRoot_spec hpsize2 hleft (hright true hnext)
          (hown2.perm (by simp) : Owned t2 ([v.l] ++ [v.r] ++ pRoot :: rest))
        rw [if_pos hroot, hnew]
        dsimp only
        rw [parentLoop, Option.map_some]
        rw [hitems] at htree
        exact ⟨_, 1, rfl, by simpa using htree, hkeeps.trans hkeeps', rfl, Nat.zero_le _⟩
    · have hne : stack ≠ [] := by
        rintro rfl
        cases ha
        exact hroot rfl
      rw [if_neg hroot]
      rw [kept, if_neg hroot] at hown2
      have hlen := congrArg length hitems
      rw [length_append, length_insertAt] at hlen
      have hown3 : Owned t2 (around ++ ([v.l] ++ [v.r]) ++ rest) := by
        refine hown2.perm ?_
        rw [perm_iff_count]
        intro a
        simp only [count_append, count_cons, count_nil]
        omega
      obtain ⟨t3, H, hloop, htree, hkeeps', hH⟩ := parentLoop_spec hne hpsize2
        (ha.congr hsizes.psize fun q hq => hkept q (mem_append_left _ hq)) hleft
        (hright last hnext) (fun hlast => by rw [hw hlast, hlen]) hown3
      rw [hloop, Option.map_some]
      rw [hitems] at htree
      exact ⟨_, H, rfl, htree, hkeeps.trans hkeeps', rfl, by omega⟩
  · have hroom' : recLayout.used (.leaf xs) + nrleaf x + indxSize ≤ b.tree.psize - btdataoff := by
      rw [Layout.free, hbody] at hno
      rw [indxSize] at hno ⊢
      omega
    obtain ⟨t1, hput, hwrote⟩ := putLeaf_spec hbody hindex hroom'
    have hps := hwrote.sizes.psize
    have hbelow : Below t1 0 pg last (insertAt index x xs) [pg] := by
      refine ⟨rfl, hwrote.body, Fits.congr ⟨?_, fun y hy => ?_⟩ hps, fun hl => hwrote.nextpg.trans (hnext hl)⟩
      · rw [used_insertAt]
        exact hroom'
      · rcases mem_insertAt.mp hy with rfl | hy
        · exact hx
        · exact hfits.2 y hy
    simp only [if_neg hno, hput, Option.map_some]
    refine ⟨_, 0 + stack.length, rfl, ?_, ⟨hwrote.sizes, fun q hq => .of_eq (hwrote.keep hfrest q hq)⟩, rfl,
      by omega⟩
    exact (ha.congr hps fun q hq => .of_eq (hwrote.keep hfa q hq)).isTree hbelow
      (fun hlast => by rw [hw hlast, length_insertAt])
      ((hwrote.owned _ mem_cons_self hown').perm hperm.symm)

end Bsd386.Db.Recno
