import Bsd386.Db.Recno.Levels

/-!
# Searching for a record number

A search goes down by the entry below which the record is: the counts of the entries before it are right, so
that `total` is the number of records before it.
-/

namespace Bsd386.Db.Recno

open List Btree
open BitVec (ofNat ofNat_add toNat_ofNat)

variable {recno : BitVec 32} {t : Tree RLeaf RInternal} {pg : ℕ}

/-! ## One page -/

theorem findEntry_spec {P : ℕ → Bool → List RLeaf → List ℕ → Prop} {last : Bool} {ks : List Kid}
    (hks : ks ≠ []) (h : Kids P last ks) {n : ℕ} (hn : n ≤ recno.toNat)
    (hrecno : recno.toNat < n + (itemsOf ks).length ∨
      last = true ∧ recno.toNat ≤ n + (itemsOf ks).length)
    (hlt : n + (itemsOf ks).length < 2 ^ 32) (index : ℕ) :
    ∃ L k R, ks = L ++ k :: R ∧
      findEntry recno (ks.map Kid.entry) index (BitVec.ofNat 32 n) =
        some (index + L.length, BitVec.ofNat 32 (n + (itemsOf L).length), k.entry) ∧
      n + (itemsOf L).length ≤ recno.toNat ∧
      (recno.toNat < n + (itemsOf L).length + k.items.length ∨
        (last && R.isEmpty) = true ∧ recno.toNat ≤ n + (itemsOf L).length + k.items.length) := by
  induction ks generalizing n index with
  | nil => exact absurd rfl hks
  | cons k ks ih =>
    rw [itemsOf_cons, length_append] at hrecno hlt
    cases ks with
    | nil =>
      refine ⟨[], k, [], rfl, rfl, hn, ?_⟩
      simpa using hrecno
    | cons k' ks =>
      obtain ⟨hk, hrest⟩ := h
      have hcount := hk.count (by simp)
      have hadd : ofNat 32 n + k.entry.nrecs = ofNat 32 (n + k.items.length) := by
        rw [hcount, ofNat_add]
      have hless : (recno < ofNat 32 n + k.entry.nrecs) ↔ recno.toNat < n + k.items.length := by
        rw [hadd, BitVec.lt_def, toNat_ofNat, Nat.mod_eq_of_lt (by omega)]
      rw [map_cons, map_cons, findEntry]
      by_cases hin : recno.toNat < n + k.items.length
      · rw [if_pos (hless.mpr hin)]
        exact ⟨[], k, k' :: ks, rfl, rfl, hn, .inl hin⟩
      rw [if_neg fun hl => hin (hless.mp hl), hadd]
      obtain ⟨L, r, R, heq, hfind, hle, hfound⟩ := ih (cons_ne_nil _ _) hrest
        (n := n + k.items.length) (by omega) (by rw [Nat.add_assoc]; exact hrecno) (by omega)
        (index + 1)
      refine ⟨k :: L, r, R, by rw [heq]; rfl, ?_, ?_, ?_⟩
      · rw [← map_cons, hfind, itemsOf_cons, length_append, length_cons,
          Nat.add_assoc n, Nat.add_assoc index, Nat.add_comm 1]
      · rw [itemsOf_cons, length_append]
        omega
      · rw [itemsOf_cons, length_append, ← Nat.add_assoc n]
        exact hfound

theorem modify_append_cons {γ : Type} (L : List γ) (x : γ) (R : List γ) (f : γ → γ) :
    (L ++ x :: R).modify L.length f = L ++ f x :: R := by
  induction L with
  | nil => rfl
  | cons y L ih =>
    rw [cons_append, length_cons, modify_succ_cons, ih]
    rfl

theorem used_internal (es : List RInternal) : recLayout.used (.internal es) = 10 * es.length := by
  have hsum : ∀ es : List RInternal, ((recLayout.sizes (.internal es)).map Prod.fst).sum = 8 * es.length := by
    intro es
    induction es with
    | nil => rfl
    | cons e es ih =>
      rw [Layout.sizes] at ih ⊢
      rw [map_cons, map_cons, sum_cons, ih, length_cons]
      have hbytes : recLayout.internalBytes e = 8 := rfl
      rw [hbytes]
      omega
  have hnext : (Body.internal es : Body RLeaf RInternal).nextindex = es.length := Nat.zero_add _
  rw [Layout.used, hsum, hnext, indxSize]
  omega

theorem fits_internal {es : List RInternal} :
    Fits t (.internal es) ↔ 10 * es.length ≤ t.psize - btdataoff := by
  rw [Fits, used_internal]
  exact and_iff_left fun x hx => absurd hx not_mem_nil

theorem changeEntry_spec {index : ℕ} {L R : List RInternal} {r : RInternal}
    (hbody : (t.pages pg).body = .internal (L ++ r :: R)) (hindex : index = L.length)
    (f : RInternal → RInternal) : Wrote t (changeEntry t pg index f) pg (.internal (L ++ f r :: R)) := by
  have hmodify : (t.pages pg).body.entries.modify index f = L ++ f r :: R := by
    rw [hbody, hindex]
    exact modify_append_cons L r R f
  rw [changeEntry, hmodify]
  exact .set _ _ _

theorem countEntry_spec (op : SrchOp) {L R : List RInternal}
    {r : RInternal} (hbody : (t.pages pg).body = .internal (L ++ r :: R)) :
    Wrote t (countEntry op t pg L.length) pg
      (.internal (L ++ { r with nrecs := r.nrecs + op.delta } :: R)) := by
  cases op with
  | search =>
    have hzero : r.nrecs + SrchOp.search.delta = r.nrecs := BitVec.add_zero _
    rw [hzero]
    exact ⟨.refl t, hbody, rfl, fun q _ => rfl, fun own _ h => h⟩
  | sdelete => exact changeEntry_spec hbody rfl _
  | sinsert => exact changeEntry_spec hbody rfl _

/-! ## The way down -/

/-- A search for the record with the number `n`, counted from 0, has ended at a leaf page: the records
before the page, on it and behind it; the counts around the page are those after the operation.
Source: __rec_search -/
structure Reached (op : SrchOp) (n : ℕ) (t : Tree RLeaf RInternal) (all : List RLeaf)
    (own rest : List ℕ) (e : Found) (t' : Tree RLeaf RInternal) (pre its post : List RLeaf) (last : Bool)
    (around : List ℕ) : Prop where
  above : Above t' e.stack 0 e.pgno (BitVec.ofNat 32 its.length + op.delta) last pre post around
  below : Below t' 0 e.pgno last its [e.pgno]
  all_eq : all = pre ++ its ++ post
  index : e.index = n - pre.length
  before : pre.length ≤ n
  within : n < pre.length + its.length ∨ last = true ∧ n ≤ pre.length + its.length
  perm : (around ++ [e.pgno]).Perm own
  leaf : t'.pages e.pgno = t.pages e.pgno
  sizes : SameSizes t t'
  owned : Owned t' (own ++ rest)
  same : ∀ q ∈ rest, t'.pages q = t.pages q

theorem used_leaf_ge (xs : List RLeaf) : 2 * xs.length ≤ recLayout.used (.leaf xs) := by
  rw [Layout.used, indxSize]
  have hnext : (Body.leaf xs : Body RLeaf RInternal).nextindex = xs.length := rfl
  omega

theorem searchLoop_spec {op : SrchOp} {all : List RLeaf} {rest : List ℕ}
    (hall : all.length < 2 ^ 32) {h fuel : ℕ} (hfuel : h < fuel)
    (hpsize : t.psize ≤ 65536) {stack : List (ℕ × ℕ)} {last : Bool} {pre items post : List RLeaf}
    {around own : List ℕ}
    (ha : Above t stack h pg (BitVec.ofNat 32 items.length + op.delta) last pre post around)
    (hb : Below t h pg last items own) (hown : Owned t (around ++ own ++ rest))
    (heq : all = pre ++ items ++ post) (hpre : pre.length ≤ recno.toNat)
    (hin : recno.toNat < pre.length + items.length ∨
      last = true ∧ recno.toNat ≤ pre.length + items.length) :
    ∃ e t' pre' its post' last' around',
      searchLoop op recno fuel pg (BitVec.ofNat 32 pre.length) stack t = some (e, t') ∧
      Reached op recno.toNat t all (around ++ own) rest e t' pre' its post' last' around' ∧
      e.stack.length = h + stack.length ∧
      ∀ (t0 : Tree RLeaf RInternal) (fuel0 : ℕ), h < fuel0 →
        (∀ q ∈ own, (t0.pages q).body = (t.pages q).body) →
        ∃ t1, searchLoop .search recno fuel0 pg (BitVec.ofNat 32 pre.length) stack t0 = some (e, t1) := by
  have hlen : all.length = pre.length + items.length + post.length := by
    rw [heq, length_append, length_append]
  induction h generalizing fuel t stack pg last pre items post around own with
  | zero =>
    obtain ⟨fuel, rfl⟩ : ∃ k, fuel = k + 1 := ⟨fuel - 1, by omega⟩
    obtain ⟨rfl, hbody, hfits, hlast⟩ := hb
    have hindex : (recno - ofNat 32 pre.length).toNat % 2 ^ 16 = recno.toNat - pre.length := by
      have hused := used_leaf_ge items
      have hroom := hfits.1
      rw [BitVec.toNat_sub_of_le, toNat_ofNat, Nat.mod_eq_of_lt (by omega : pre.length < 2 ^ 32),
        Nat.mod_eq_of_lt]
      · omega
      · rw [BitVec.le_def, toNat_ofNat, Nat.mod_eq_of_lt (by omega)]
        exact hpre
    rw [searchLoop, hbody]
    refine ⟨⟨pg, _, stack⟩, t, pre, items, post, last, around, rfl, ⟨ha, ⟨rfl, hbody, hfits, hlast⟩, heq,
      hindex, hpre, hin, .refl _, rfl, .refl t, hown, fun q _ => rfl⟩, (Nat.zero_add _).symm,
      fun t0 fuel0 hfuel0 hsame => ?_⟩
    obtain ⟨fuel0, rfl⟩ : ∃ k, fuel0 = k + 1 := ⟨fuel0 - 1, by omega⟩
    rw [searchLoop, (hsame pg mem_cons_self).trans hbody]
    exact ⟨t0, rfl⟩
  | succ h ih =>
    obtain ⟨fuel, rfl⟩ : ∃ k, fuel = k + 1 := ⟨fuel - 1, by omega⟩
    obtain ⟨ks, hne, hbody, hfits, rfl, rfl, hkids⟩ := hb
    obtain ⟨L, k, R, rfl, hfind, hle, hfound⟩ := findEntry_spec hne hkids hpre hin (by omega) 0
    rw [Nat.zero_add] at hfind
    rw [searchLoop, hbody]
    dsimp only
    rw [hfind]
    dsimp only
    rw [map_append, map_cons] at hbody hfits
    have hwrote := countEntry_spec op hbody
    rw [length_map] at hwrote
    generalize countEntry op t pg L.length = t1 at hwrote ⊢
    have hsizes1 := hwrote.sizes
    have hmem : pg ∈ around ++ (pg :: ownOf (L ++ k :: R)) ++ rest := by simp
    -- the page itself is none of the others
    have hfresh : pg ∉ around ∧ pg ∉ ownOf (L ++ k :: R) ∧ pg ∉ rest := by
      have hperm : (pg :: (around ++ ownOf (L ++ k :: R) ++ rest)).Perm
          (around ++ (pg :: ownOf (L ++ k :: R)) ++ rest) := by
        rw [perm_iff_count]
        intro a
        simp only [count_append, count_cons]
        omega
      have hnot := (nodup_cons.mp (hown.perm hperm).nodup).1
      rw [mem_append, mem_append, not_or, not_or] at hnot
      exact ⟨hnot.1.1, hnot.1.2, hnot.2⟩
    have hkeep : ∀ c : List ℕ, pg ∉ c → ∀ q ∈ c, SamePage (t.pages q) (t1.pages q) :=
      fun c hc q hq => .of_eq (hwrote.keep hc q hq)
    obtain ⟨hkL, ⟨hbelow, hcount⟩, hkR⟩ := Kids.append.mp hkids
    rw [isEmpty_cons, Bool.and_false] at hkL
    simp only [ownOf_append, ownOf_cons, mem_append, not_or] at hfresh
    obtain ⟨hfa, ⟨hfL, hfk, hfR⟩, hfrest⟩ := hfresh
    have hframe : Frame t1 h pg k.entry.pgno (ofNat 32 k.items.length + op.delta) last L
        { k.entry with nrecs := k.entry.nrecs + op.delta } R :=
      { pgno := rfl
        body := hwrote.body
        fits := by
          rw [fits_internal] at hfits ⊢
          rw [hsizes1.psize]
          simpa using hfits
        left := hkL.congr hsizes1.psize (hkeep _ hfL)
        right := hkR.congr hsizes1.psize (hkeep _ hfR)
        count := fun hl => by rw [hcount hl] }
    have hweight : ofNat 32 (itemsOf L).length +
          (ofNat 32 k.items.length + op.delta) + ofNat 32 (itemsOf R).length =
        ofNat 32 (itemsOf (L ++ k :: R)).length + op.delta := by
      rw [itemsOf_append, itemsOf_cons, length_append, length_append, ofNat_add,
        ofNat_add]
      ring
    have habove := Above.step hframe (hweight ▸ ha.congr hsizes1.psize (hkeep _ hfa))
    have hperm : ((around ++ pg :: (ownOf L ++ ownOf R)) ++ k.own).Perm
        (around ++ (pg :: ownOf (L ++ k :: R))) := by
      rw [perm_iff_count]
      intro a
      simp only [count_append, count_cons, ownOf_append, ownOf_cons]
      omega
    have hsplit : all = (pre ++ itemsOf L) ++ k.items ++ (itemsOf R ++ post) := by
      rw [heq, itemsOf_append, itemsOf_cons]
      simp only [append_assoc]
    obtain ⟨e, t', pre', its, post', last', around', hres, hreach, hheight, hagree⟩ := ih
      (by omega : h < fuel)
      (by rw [hsizes1.psize]; exact hpsize) habove (hbelow.congr hsizes1.psize (hkeep _ hfk))
      ((hwrote.owned _ hmem hown).perm (hperm.append_right rest)) hsplit
      (by rw [length_append]; exact hle) (by rw [length_append]; exact hfound)
      (by rw [hsplit, length_append, length_append])
    rw [length_append] at hres hagree
    -- the page reached is a leaf page, so it is not the one whose count was changed
    have hepg : e.pgno ≠ pg := fun heq => by
      have hleaf := hreach.below.2.1
      rw [hreach.leaf, heq, hwrote.body] at hleaf
      cases hleaf
    refine ⟨e, t', pre', its, post', last', around', hres,
      { hreach with
        perm := hreach.perm.trans hperm
        leaf := hreach.leaf.trans (hwrote.other _ hepg)
        sizes := hsizes1.trans hreach.sizes
        owned := hreach.owned.perm (hperm.symm.append_right rest)
        same := fun q hq => (hreach.same q hq).trans (hwrote.keep hfrest q hq) },
      by rw [hheight, length_cons]; omega, fun t0 fuel0 hfuel0 hsame => ?_⟩
    obtain ⟨fuel0, rfl⟩ : ∃ k, fuel0 = k + 1 := ⟨fuel0 - 1, by omega⟩
    rw [searchLoop, (hsame pg mem_cons_self).trans hbody]
    dsimp only
    rw [← map_cons, ← map_append, hfind]
    refine hagree t0 fuel0 (by omega) fun q hq => ?_
    rw [hsame q (mem_cons_of_mem pg (by simp [hq])), hwrote.keep hfk q hq]

/-- **A search** ends at the leaf page that has the record, or at the last one for the number behind the
last record. -/
theorem recSearch_spec (op : SrchOp)
    (hpsize : t.psize ≤ 65536) {H : ℕ} {all : List RLeaf} {own rest : List ℕ}
    (hb : Below t H pRoot true all own) (hown : Owned t (own ++ rest)) (hall : all.length < 2 ^ 32)
    (hrecno : recno.toNat ≤ all.length) :
    ∃ e t' pre its post last around, recSearch op recno t = some (e, t') ∧
      Reached op recno.toNat t all own rest e t' pre its post last around ∧ e.stack.length = H ∧
      ∀ t0 : Tree RLeaf RInternal, H < t0.npages → (∀ q ∈ own, (t0.pages q).body = (t.pages q).body) →
        ∃ t1, recSearch .search recno t0 = some (e, t1) := by
  have hpos := hown.bounds (mem_append_left rest hb.mem_own)
  have hfuel : H < t.npages := Nat.lt_trans hb.height_lt (hown.left.length_lt (by omega))
  obtain ⟨e, t', pre, its, post, last, around, hres, hreach, hheight, hagree⟩ :=
    searchLoop_spec hall hfuel hpsize (.root H _) hb hown (by simp) (Nat.zero_le _)
      (.inr ⟨rfl, by simpa using hrecno⟩)
  exact ⟨e, t', pre, its, post, last, around, hres, hreach, hheight,
    fun t0 hnp hsame => hagree t0 t0.npages hnp hsame⟩

theorem searchLoop_tree {n : ℕ} {total : BitVec 32} {stack : List (ℕ × ℕ)}
    {e : Found} {t' : Tree RLeaf RInternal}
    (h : searchLoop .search recno n pg total stack t = some (e, t')) : t' = t := by
  induction n generalizing pg total stack with
  | zero => exact absurd h (by simp [searchLoop])
  | succ n ih =>
    rw [searchLoop] at h
    cases hbody : (t.pages pg).body with
    | leaf xs =>
      rw [hbody] at h
      exact (congrArg Prod.snd (Option.some.inj h)).symm
    | internal es =>
      rw [hbody] at h
      dsimp only at h
      cases hfind : findEntry recno es 0 total with
      | none =>
        rw [hfind] at h
        exact absurd h (by simp)
      | some found =>
        rw [hfind] at h
        exact ih h
    | overflow bs =>
      rw [hbody] at h
      exact absurd h (by simp)

end Bsd386.Db.Recno
