import Bsd386.Db.Recno.Grow

/-!
# The records of a recno database

The items of the tree are records: an item has its data on the page or on a chain of overflow pages of its
own.
-/

namespace Bsd386.Db.Recno

open List Btree
open BitVec (lt_def ofNat ofNat_add)

variable {t : Tree RLeaf RInternal} {c : Cell} {b : Recno} {H index n pg : ℕ} {cs : List Cell}
  {post pre xs : List RLeaf} {last : Bool} {around : List ℕ} {nrec : BitVec 32} {data : List UInt8}

/-! ## Records -/

/-- A record: the item, the overflow pages it uses, and its bytes. -/
structure Cell where
  item : RLeaf
  chain : List ℕ
  bytes : List UInt8

/-- The item has the bytes. Source: __rec_ret -/
def Cell.Holds (t : Tree RLeaf RInternal) (c : Cell) : Prop :=
  match c.item with
  | .data bs => c.chain = [] ∧ bs = c.bytes
  | .bigdata pg size => size = c.bytes.length ∧ c.chain.head? = some pg ∧
      Chain t.pages t.plen c.chain c.bytes ∧ ∀ q ∈ c.chain, (t.pages q).preserve = false

/-- The overflow pages of the records. -/
def chainsOf (cs : List Cell) : List ℕ := cs.flatMap Cell.chain

theorem Cell.Holds.congr {t' : Tree RLeaf RInternal} (h : c.Holds t)
    (hpsize : t'.psize = t.psize) (hsame : ∀ q ∈ c.chain, SamePage (t.pages q) (t'.pages q)) :
    c.Holds t' := by
  obtain ⟨item, chain, bytes⟩ := c
  cases item with
  | data bs => exact h
  | bigdata pg size =>
    obtain ⟨hsize, hhead, hchain, hpres⟩ := h
    refine ⟨hsize, hhead, ?_, fun q hq => ((hsame q hq).preserve).trans (hpres q hq)⟩
    rw [Tree.plen, hpsize]
    exact hchain.congr fun q hq => ⟨(hsame q hq).nextpg, (hsame q hq).body⟩

/-- The database has the records, in a tree of the height `H`. -/
structure Stored (b : Recno) (H : ℕ) (cs : List Cell) : Prop where
  tree : IsTree b.tree H (cs.map Cell.item) (chainsOf cs)
  holds : ∀ c ∈ cs, c.Holds b.tree
  count : b.nrecs = BitVec.ofNat 32 cs.length
  small : cs.length < 2 ^ 32
  min_psize : 512 ≤ b.tree.psize
  max_psize : b.tree.psize ≤ 65536
  cutoff : b.tree.ovflsize = ovflsizeOf b.tree.psize defminkeypage

theorem Stored.toNat_nrecs (h : Stored b H cs) :
    b.nrecs.toNat = cs.length := by
  rw [h.count, BitVec.toNat_ofNat, Nat.mod_eq_of_lt h.small]

/-- The bytes that a record takes on its page. Source: __rec_iput -/
def recBytes (ovflsize : ℕ) (data : List UInt8) : ℕ :=
  nrleafdbt (if ovflsize < data.length then novflsize else data.length)

theorem recBytes_lt {psize : ℕ} (hmin : 512 ≤ psize) (hmax : psize ≤ 65536) (data : List UInt8) :
    recBytes (ovflsizeOf psize defminkeypage) data < (psize - btdataoff) / 2 := by
  have hcut : ovflsizeOf psize defminkeypage = (psize - 20) / 2 - 14 := by
    have hnb : indxSize + nbleafdbt 0 0 = 14 := rfl
    have hmin' : nbleafdbt novflsize novflsize + indxSize = 30 := rfl
    rw [ovflsizeOf, hnb, hmin', btdataoff, defminkeypage, if_neg (by omega)]
    omega
  rw [recBytes, hcut, nrleafdbt, lalign, btdataoff, novflsize]
  split
  · omega
  · omega

/-- **Storing the data of a record**: on new overflow pages, if it is large; no page in use is changed. -/
theorem storeData_spec {own : List ℕ} (h : Owned t own) (hpos : 0 < t.npages)
    (hmin : 512 ≤ t.psize) (data : List UInt8) :
    ∃ (c : Cell) (t' : Tree RLeaf RInternal), storeData t data = (c.item, t') ∧ c.bytes = data ∧
      c.Holds t' ∧ nrleaf c.item = recBytes t.ovflsize data ∧ Owned t' (c.chain ++ own) ∧ SameSizes t t' ∧
      ∀ q ∈ own, t'.pages q = t.pages q := by
  rw [storeData, recBytes]
  by_cases hbig : t.ovflsize < data.length
  · have hplen : 0 < t.plen := by
      rw [Tree.plen, btdataoff]
      omega
    obtain ⟨pg, chain, t', hput, hown, hsizes, hhead, hchain, hpres, hsame⟩ := ovflPut_spec h hpos hplen data
    rw [if_pos hbig, if_pos hbig, hput]
    refine ⟨⟨.bigdata pg data.length, chain, data⟩, t', rfl, rfl, ⟨rfl, hhead, ?_, hpres⟩, rfl, hown, hsizes,
      hsame⟩
    rw [hsizes.plen]
    exact hchain
  · rw [if_neg hbig, if_neg hbig]
    exact ⟨⟨.data data, [], data⟩, t, rfl, rfl, ⟨rfl, rfl⟩, rfl, h, .refl t, fun q _ => rfl⟩

/-! ## Deleting -/

theorem freeData_spec {own : List ℕ} (hmin : 512 ≤ t.psize)
    (hc : c.Holds t) (h : Owned t (c.chain ++ own)) :
    Owned (freeData t c.item) own ∧ SameSizes t (freeData t c.item) ∧
      ∀ q ∈ own, (freeData t c.item).pages q = t.pages q := by
  obtain ⟨item, chain, bytes⟩ := c
  cases item with
  | data bs =>
    obtain ⟨hnil, -⟩ := hc
    rw [hnil] at h
    exact ⟨h, .refl t, fun q _ => rfl⟩
  | bigdata pg size =>
    obtain ⟨hsize, hhead, hchain, hpres⟩ := hc
    have hplen : 0 < t.plen := by
      rw [Tree.plen, btdataoff]
      omega
    have hmem : pg ∈ chain := mem_of_mem_head? (by rw [hhead]; rfl)
    rw [freeData, hsize]
    exact ovflDelete_spec h hplen hchain hhead (hpres pg hmem)

theorem eraseIdx_insertAt {γ : Type} {xs : List γ} {x : γ} (h : xs[n]? = some x) :
    insertAt n x (xs.eraseIdx n) = xs := by
  obtain ⟨hn, rfl⟩ := List.getElem?_eq_some_iff.mp h
  have hlen : (xs.take n).length = n := length_take_of_le (Nat.le_of_lt hn)
  have hins := insertAt_append (xs.take n) xs[n] (xs.drop (n + 1))
  rw [hlen] at hins
  rw [eraseIdx_eq_take_drop_succ, hins, getElem_cons_drop, take_append_drop]

/-- **Deleting a record from its page**: its overflow pages are free then, and what is around the page stays
as it is. -/
theorem recDleaf_spec {stack : List (ℕ × ℕ)} {w : BitVec 32}
    {rest : List ℕ} (hmin : 512 ≤ b.tree.psize)
    (ha : Above b.tree stack 0 pg w last pre post around) (hb : Below b.tree 0 pg last xs [pg])
    (hget : xs[index]? = some c.item) (hc : c.Holds b.tree)
    (hown : Owned b.tree (around ++ [pg] ++ (c.chain ++ rest))) :
    ∃ b', recDleaf b pg index = some b' ∧ Above b'.tree stack 0 pg w last pre post around ∧
      Below b'.tree 0 pg last (xs.eraseIdx index) [pg] ∧ Owned b'.tree (around ++ [pg] ++ rest) ∧
      Keeps b.tree b'.tree rest ∧ b'.nrecs = b.nrecs - 1 ∧
      (b'.tree.pages pg).nextpg = (b.tree.pages pg).nextpg := by
  obtain ⟨-, hbody, hfits, hnext⟩ := hb
  have hperm : (c.chain ++ (pg :: (around ++ rest))).Perm (around ++ [pg] ++ (c.chain ++ rest)) := by
    rw [perm_iff_count]
    intro a
    simp only [count_append, count_cons, count_nil]
    omega
  obtain ⟨hown1, hsizes1, hsame1⟩ := freeData_spec hmin hc (hown.perm hperm)
  have hfresh := (nodup_cons.mp hown1.nodup).1
  rw [mem_append, not_or] at hfresh
  obtain ⟨hfa, hfrest⟩ := hfresh
  have hitems : (b.tree.pages pg).body.items = xs := by rw [hbody]; rfl
  rw [recDleaf, hitems, hget]
  dsimp only
  rw [← hsame1 pg mem_cons_self]
  have hw := Wrote.set (freeData b.tree c.item) pg (.leaf (xs.eraseIdx index))
  generalize freeData b.tree c.item = t1 at hown1 hsizes1 hsame1 hw ⊢
  generalize t1.set pg _ = t2 at hw ⊢
  have hps : t2.psize = b.tree.psize := hw.sizes.psize.trans hsizes1.psize
  have hkeep : ∀ q ∈ around ++ rest, t2.pages q = b.tree.pages q := by
    intro q hq
    have hne : q ≠ pg := by
      rintro rfl
      rcases mem_append.mp hq with h | h
      · exact hfa h
      · exact hfrest h
    rw [hw.other q hne, hsame1 q (mem_cons_of_mem pg hq)]
  have hnextpg : (t2.pages pg).nextpg = (b.tree.pages pg).nextpg := by
    rw [hw.nextpg, hsame1 pg mem_cons_self]
  refine ⟨_, rfl, ha.congr hps fun q hq => .of_eq (hkeep q (mem_append_left _ hq)),
    ⟨rfl, hw.body, Fits.congr ⟨?_, fun x hx => hfits.2 x (mem_of_mem_eraseIdx hx)⟩ hps,
      fun hl => hnextpg.trans (hnext hl)⟩, ?_,
    ⟨hsizes1.trans hw.sizes, fun q hq => .of_eq (hkeep q (mem_append_right _ hq))⟩, rfl, hw.nextpg⟩
  · have hused := used_insertAt index c.item (xs.eraseIdx index)
    rw [eraseIdx_insertAt hget] at hused
    have hroom := hfits.1
    omega
  · refine (hw.owned _ mem_cons_self hown1).perm ?_
    rw [perm_iff_count]
    intro a
    simp only [count_append, count_cons, count_nil]
    omega

/-! ## Inserting -/

theorem insertAt_middle {γ : Type} {pre xs post : List γ} (h : index ≤ xs.length) (x : γ) :
    insertAt (pre.length + index) x (pre ++ xs ++ post) = pre ++ insertAt index x xs ++ post := by
  obtain ⟨L, R, rfl, rfl⟩ : ∃ L R, xs = L ++ R ∧ index = L.length :=
    ⟨xs.take index, xs.drop index, (take_append_drop index xs).symm,
      (length_take_of_le h).symm⟩
  have hpre : pre ++ (L ++ R) ++ post = (pre ++ L) ++ (R ++ post) := by simp only [append_assoc]
  rw [insertAt_append, hpre, ← length_append, insertAt_append]
  simp only [append_assoc, cons_append]

theorem map_insertAt {γ δ : Type} (f : γ → δ) (n : ℕ) (x : γ) (xs : List γ) :
    (insertAt n x xs).map f = insertAt n (f x) (xs.map f) := by
  rw [insertAt, map_append, map_cons, map_take, map_drop, insertAt]

theorem chainsOf_insertAt (n : ℕ) (c : Cell) (cs : List Cell) :
    (chainsOf (insertAt n c cs)).Perm (c.chain ++ chainsOf cs) := by
  have hsplit : chainsOf cs = chainsOf (cs.take n) ++ chainsOf (cs.drop n) := by
    rw [chainsOf, chainsOf, chainsOf, ← flatMap_append, take_append_drop]
  have hins : chainsOf (insertAt n c cs) = chainsOf (cs.take n) ++ (c.chain ++ chainsOf (cs.drop n)) := by
    rw [insertAt, chainsOf, flatMap_append]
    rfl
  rw [hins, hsplit, perm_iff_count]
  intro a
  simp only [count_append]
  omega

theorem placed {stack : List (ℕ × ℕ)} {w : BitVec 32}
    (hmin : 512 ≤ b.tree.psize)
    (hmax : b.tree.psize ≤ 65536) (hcut : b.tree.ovflsize = ovflsizeOf b.tree.psize defminkeypage)
    (ha : Above b.tree stack 0 pg w last pre post around) (hb : Below b.tree 0 pg last xs [pg])
    (hcs : cs.map Cell.item = pre ++ xs ++ post) (hholds : ∀ d ∈ cs, d.Holds b.tree) (hc : c.Holds b.tree)
    (hsize : nrleaf c.item < (b.tree.psize - btdataoff) / 2) (hindex : index ≤ xs.length)
    (hw : last = false → w = BitVec.ofNat 32 (xs.length + 1))
    (hroom : RoomAt b.tree pg index xs (nrleaf c.item))
    (hown : Owned b.tree (around ++ [pg] ++ (c.chain ++ chainsOf cs)))
    (hcount : b.nrecs = BitVec.ofNat 32 cs.length) (hsmall : cs.length + 1 < 2 ^ 32) :
    ∃ b' H, placeItem b pg index stack c.item = some b' ∧
      Stored b' H (insertAt (pre.length + index) c cs) ∧ stack.length ≤ H ∧
      b'.tree.psize = b.tree.psize := by
  obtain ⟨b', H, hplace, ⟨own, hbelow, hown'⟩, hkeeps, hnrecs, hH⟩ :=
    placeItem_spec hmin ha hb hsize hindex hw hroom hown
  have hps := hkeeps.sizes.psize
  have hitems : (insertAt (pre.length + index) c cs).map Cell.item =
      pre ++ insertAt index c.item xs ++ post := by
    rw [map_insertAt, hcs, insertAt_middle hindex]
  refine ⟨b', H, hplace, ⟨⟨own, hitems ▸ hbelow, ?_⟩, fun d hd => ?_, ?_, ?_, ?_, ?_, ?_⟩, hH, hps⟩
  · exact hown'.perm ((chainsOf_insertAt _ c cs).append_left own)
  · rcases mem_insertAt.mp hd with rfl | hd
    · exact hc.congr hps fun q hq => hkeeps.same q (mem_append_left _ hq)
    · refine (hholds d hd).congr hps fun q hq => hkeeps.same q (mem_append_right _ ?_)
      exact mem_flatMap.mpr ⟨d, hd, hq⟩
  · rw [hnrecs, hcount, length_insertAt, ofNat_add]
    rfl
  · rw [length_insertAt]
    exact hsmall
  · rw [hps]
    exact hmin
  · rw [hps]
    exact hmax
  · rw [hkeeps.sizes.ovflsize, hps]
    exact hcut

/-- The data of a record is stored and its place is searched: what holds then.
Source: __rec_iput -/
structure Ready (b : Recno) (H : ℕ) (cs : List Cell) (op : SrchOp) (n : ℕ) (data : List UInt8) (c : Cell)
    (e : Found) (t : Tree RLeaf RInternal) (pre xs post : List RLeaf) (last : Bool) (around : List ℕ) :
    Prop where
  above : Above t e.stack 0 e.pgno (BitVec.ofNat 32 xs.length + op.delta) last pre post around
  below : Below t 0 e.pgno last xs [e.pgno]
  items : cs.map Cell.item = pre ++ xs ++ post
  index : e.index = n - pre.length
  before : pre.length ≤ n
  within : n < pre.length + xs.length ∨ last = true ∧ n ≤ pre.length + xs.length
  height : e.stack.length = H
  owned : Owned t (around ++ [e.pgno] ++ (c.chain ++ chainsOf cs))
  sizes : SameSizes b.tree t
  holds : ∀ d ∈ cs, d.Holds t
  new : c.Holds t
  bytes : c.bytes = data
  nbytes : nrleaf c.item = recBytes b.tree.ovflsize data
  inline : data.length ≤ b.tree.ovflsize → c = ⟨.data data, [], data⟩
  leaf : t.pages e.pgno = b.tree.pages e.pgno

theorem Stored.ready (h : Stored b H cs) (op : SrchOp)
    (hn : nrec.toNat ≤ cs.length) (data : List UInt8) :
    ∃ c t1 e t pre xs post last around, storeData b.tree data = (c.item, t1) ∧
      recSearch op nrec t1 = some (e, t) ∧ (∃ t0, recSearch .search nrec b.tree = some (e, t0)) ∧
      Ready b H cs op nrec.toNat data c e t pre xs post last around := by
  obtain ⟨own, hbelow, hown⟩ := h.tree
  have hpos := (hown.bounds (mem_append_left _ hbelow.mem_own)).2
  obtain ⟨c, t1, hstore, hbytes, hnew, hnb, hown1, hsizes1, hsame1⟩ :=
    storeData_spec hown (by omega) h.min_psize data
  have hps1 := hsizes1.psize
  have hkeep : ∀ q ∈ own ++ chainsOf cs, SamePage (b.tree.pages q) (t1.pages q) :=
    fun q hq => .of_eq (hsame1 q hq)
  have hperm : (own ++ (c.chain ++ chainsOf cs)).Perm (c.chain ++ (own ++ chainsOf cs)) := by
    rw [perm_iff_count]
    intro a
    simp only [count_append]
    omega
  have hn' : nrec.toNat ≤ (cs.map Cell.item).length := by
    rw [length_map]
    exact hn
  obtain ⟨e, t, pre, xs, post, last, around, hres, hreach, hheight, hagree⟩ := recSearch_spec op
    (by rw [hps1]; exact h.max_psize)
    (hbelow.congr hps1 fun q hq => hkeep q (mem_append_left _ hq)) (hown1.perm hperm)
    (by rw [length_map]; exact h.small) hn'
  have hmem : e.pgno ∈ own := hreach.perm.subset (by simp)
  have hps := hreach.sizes.psize
  have hchain : ∀ q ∈ c.chain ++ chainsOf cs, SamePage (t1.pages q) (t.pages q) :=
    fun q hq => .of_eq (hreach.same q hq)
  refine ⟨c, t1, e, t, pre, xs, post, last, around, hstore, hres, ?_, hreach.above, hreach.below,
    hreach.all_eq, hreach.index, hreach.before, hreach.within, hheight,
    hreach.owned.perm (hreach.perm.append_right _), hsizes1.trans hreach.sizes, fun d hd => ?_,
    hnew.congr hps fun q hq => hchain q (mem_append_left _ hq), hbytes, hnb, fun hle => ?_,
    hreach.leaf.trans (hsame1 _ (mem_append_left _ hmem))⟩
  · have hlen := hown.left.length_lt (by omega)
    exact hagree b.tree (Nat.lt_trans hbelow.height_lt hlen) fun q hq =>
      (hkeep q (mem_append_left _ hq)).body.symm
  · have hdc : ∀ q ∈ d.chain, q ∈ chainsOf cs := fun q hq => mem_flatMap.mpr ⟨d, hd, hq⟩
    exact ((h.holds d hd).congr hps1 fun q hq => hkeep q (mem_append_right _ (hdc q hq))).congr hps
      fun q hq => hchain q (mem_append_right _ (hdc q hq))
  · rw [storeData, if_neg (by omega)] at hstore
    obtain ⟨item, chain, bytes⟩ := c
    obtain ⟨rfl, -⟩ := Prod.mk.inj hstore
    obtain ⟨hnil, -⟩ := hnew
    dsimp only at hnil hbytes
    rw [hnil, hbytes]

theorem RoomAt.congr {t' : Tree RLeaf RInternal} {ilen : ℕ}
    (h : RoomAt t pg index xs ilen) (hpsize : t'.psize = t.psize)
    (hnext : (t'.pages pg).nextpg = (t.pages pg).nextpg) : RoomAt t' pg index xs ilen := by
  rw [RoomAt, hpsize, hnext]
  exact h

theorem Ready.place {op : SrchOp}
    {e : Found}
    (hr : Ready b H cs op n data c e t pre xs post last around) (h : Stored b H cs)
    (hindex : index ≤ xs.length) (hop : last = false → op = .sinsert) (hsmall : cs.length + 1 < 2 ^ 32)
    (hroom : RoomAt b.tree e.pgno index xs (recBytes b.tree.ovflsize data)) :
    ∃ b' H', placeItem { b with tree := t } e.pgno index e.stack c.item = some b' ∧
      Stored b' H' (insertAt (pre.length + index) c cs) ∧ H ≤ H' ∧ b'.tree.psize = b.tree.psize := by
  have hps := hr.sizes.psize
  have hov := hr.sizes.ovflsize
  have hmin := h.min_psize
  have hmax := h.max_psize
  have hcut := h.cutoff
  rw [← hps] at hmin hmax hcut
  rw [← hov] at hcut
  have hsize := recBytes_lt hmin hmax data
  rw [← hcut, hov, ← hr.nbytes] at hsize
  have hw : last = false →
      ofNat 32 xs.length + op.delta = ofNat 32 (xs.length + 1) := fun hl => by
    rw [hop hl, ofNat_add]
    rfl
  have hroom' := hroom.congr hps (by rw [hr.leaf])
  rw [← hr.nbytes] at hroom'
  rw [← hr.height, ← hps]
  exact placed (b := { b with tree := t }) hmin hmax hcut hr.above hr.below hr.items hr.holds hr.new hsize
    hindex hw hroom' hr.owned h.count hsmall

theorem Ready.page {op : SrchOp}
    {e : Found}
    (hr : Ready b H cs op n data c e t pre xs post last around) :
    (b.tree.pages e.pgno).body.items = xs := by
  rw [← hr.leaf, hr.below.2.1]
  rfl

/-- A record was put: the records are then `cs'`, and `c` is the new one, whose bytes are on the page if they
are not many. The tree is not lower than it was.
Source: __rec_iput -/
structure PutDone (b : Recno) (H : ℕ) (data : List UInt8) (b' : Recno) (H' : ℕ) (c : Cell)
    (cs' : List Cell) : Prop where
  stored : Stored b' H' cs'
  height : H ≤ H'
  psize : b'.tree.psize = b.tree.psize
  bytes : c.bytes = data
  inline : data.length ≤ b.tree.ovflsize → c = ⟨.data data, [], data⟩

/-- There is room for a record on the page where a search ends, at the index there and with the items of the
page as given. -/
def RoomFor (b : Recno) (nrec : BitVec 32) (data : List UInt8)
    (at_ : ℕ → List RLeaf → ℕ × List RLeaf) : Prop :=
  ∀ e t, recSearch .search nrec b.tree = some (e, t) →
    let (index, xs) := at_ e.index (b.tree.pages e.pgno).body.items
    RoomAt b.tree e.pgno index xs (recBytes b.tree.ovflsize data)

theorem recIput_before (h : Stored b H cs)
    (hn : nrec.toNat ≤ cs.length) (hsmall : cs.length + 1 < 2 ^ 32)
    (hroom : RoomFor b nrec data fun index xs => (index, xs)) :
    ∃ b' H' c, recIput b nrec data .rIbefore = some b' ∧
      PutDone b H data b' H' c (insertAt nrec.toNat c cs) := by
  obtain ⟨c, t1, e, t, pre, xs, post, last, around, hstore, hres, ⟨t0, hres0⟩, hr⟩ := h.ready .sinsert hn data
  have hroom' := hroom e t0 hres0
  rw [hr.page] at hroom'
  have hbefore := hr.before
  have hwithin := hr.within
  have hindex : e.index ≤ xs.length := by
    rw [hr.index]
    omega
  obtain ⟨b', H', hplace, hstored, hH, hpsize⟩ := hr.place h hindex (fun _ => rfl) hsmall hroom'
  have hpos : pre.length + e.index = nrec.toNat := by
    rw [hr.index]
    omega
  rw [recIput, hstore]
  dsimp only
  rw [if_pos (.inr (.inr rfl)), hres]
  exact ⟨b', H', c, hplace, hpos ▸ hstored, hH, hpsize, hr.bytes, hr.inline⟩

theorem recIput_after (h : Stored b H cs)
    (hn : nrec.toNat < cs.length) (hsmall : cs.length + 1 < 2 ^ 32)
    (hroom : RoomFor b nrec data fun index xs => (index + 1, xs)) :
    ∃ b' H' c, recIput b nrec data .rIafter = some b' ∧
      PutDone b H data b' H' c (insertAt (nrec.toNat + 1) c cs) := by
  obtain ⟨c, t1, e, t, pre, xs, post, last, around, hstore, hres, ⟨t0, hres0⟩, hr⟩ :=
    h.ready .sinsert (Nat.le_of_lt hn) data
  have hroom' := hroom e t0 hres0
  rw [hr.page] at hroom'
  have hbefore := hr.before
  have hlen := congrArg length hr.items
  rw [length_map, length_append, length_append] at hlen
  have hwithin : nrec.toNat < pre.length + xs.length := by
    rcases hr.within with hlt | ⟨hlast, -⟩
    · exact hlt
    · rw [hr.above.post_nil hlast, length_nil] at hlen
      omega
  have hindex : e.index + 1 ≤ xs.length := by
    rw [hr.index]
    omega
  obtain ⟨b', H', hplace, hstored, hH, hpsize⟩ := hr.place h hindex (fun _ => rfl) hsmall hroom'
  have hpos : pre.length + (e.index + 1) = nrec.toNat + 1 := by
    rw [hr.index]
    omega
  rw [recIput, hstore]
  dsimp only
  rw [if_pos (.inr (.inl rfl)), hres]
  exact ⟨b', H', c, hplace, hpos ▸ hstored, hH, hpsize, hr.bytes, hr.inline⟩

/-- **Behind the last record** there is room for a record, unless the root is the only page: the last page is
split by adding an empty page. -/
theorem Stored.room_end (h : Stored b H cs)
    (hroom : H = 0 →
      RoomAt b.tree pRoot cs.length (cs.map Cell.item) (recBytes b.tree.ovflsize data)) :
    RoomFor b b.nrecs data fun index xs => (index, xs) := by
  intro e0 t0 hres0
  obtain ⟨c, t1, e, t, pre, xs, post, last, around, -, -, ⟨t2, hres2⟩, hr⟩ :=
    h.ready .search (Nat.le_of_eq h.toNat_nrecs) data
  obtain rfl : e = e0 := congrArg Prod.fst (Option.some.inj (hres2.symm.trans hres0))
  rw [h.toNat_nrecs] at hr
  have hlen := congrArg length hr.items
  rw [length_map, length_append, length_append] at hlen
  have hlast : last = true := by
    rcases hr.within with hlt | ⟨hl, -⟩
    · omega
    · exact hl
  have hpost := hr.above.post_nil hlast
  rw [hpost, length_nil] at hlen
  have hindex : e.index = xs.length := by
    rw [hr.index]
    omega
  have hnext : (b.tree.pages e.pgno).nextpg = 0 := by
    rw [← hr.leaf]
    exact hr.below.2.2.2 hlast
  rw [hr.page]
  rintro (hroot | hne | hne)
  · have hnil : e.stack = [] := by
      by_contra hne
      have hmem := hr.above.root_mem hne
      have hnodup := hr.owned.left.nodup
      rw [hroot] at hnodup
      exact (nodup_append.mp hnodup).2.2 pRoot hmem pRoot mem_cons_self rfl
    have habove := hr.above
    have hheight := hr.height
    have hitems := hr.items
    rw [hnil] at habove hheight
    obtain ⟨-, hprenil, -, -⟩ := habove.nil
    rw [hprenil, hpost, nil_append, append_nil] at hitems
    have hroom0 := hroom hheight.symm
    rw [hitems, ← length_map Cell.item, hitems, ← hindex] at hroom0
    exact hroom0 (.inl rfl)
  · exact absurd hnext hne
  · exact absurd hindex hne

theorem recIput_append (h : Stored b H cs) {flags : Flag}
    (hflags : flags = .zero ∨ flags = .rNooverwrite) (hsmall : cs.length + 1 < 2 ^ 32)
    (hroom : RoomFor b b.nrecs data fun index xs => (index, xs)) :
    ∃ b' H' c, recIput b b.nrecs data flags = some b' ∧ PutDone b H data b' H' c (cs ++ [c]) := by
  obtain ⟨c, t1, e, t, pre, xs, post, last, around, hstore, hres, ⟨t0, hres0⟩, hr⟩ :=
    h.ready .search (Nat.le_of_eq h.toNat_nrecs) data
  have hroom' := hroom e t0 hres0
  rw [hr.page] at hroom'
  rw [h.toNat_nrecs] at hr
  have hlen := congrArg length hr.items
  rw [length_map, length_append, length_append] at hlen
  have hlast : last = true := by
    rcases hr.within with hlt | ⟨hl, -⟩
    · omega
    · exact hl
  rw [hr.above.post_nil hlast, length_nil] at hlen
  have hindex : e.index = xs.length := by
    rw [hr.index]
    omega
  obtain ⟨b', H', hplace, hstored, hH, hpsize⟩ := hr.place h (Nat.le_of_eq hindex)
    (fun hl => absurd hl (by rw [hlast]; simp)) hsmall hroom'
  have hpos : insertAt (pre.length + e.index) c cs = cs ++ [c] := by
    have hend := insertAt_append cs c []
    rw [append_nil] at hend
    rw [hindex, ← hend]
    congr 1
    omega
  have hno : ¬ b.nrecs < b.nrecs := BitVec.lt_irrefl _
  rw [recIput, hstore]
  dsimp only
  rcases hflags with rfl | rfl
  · rw [if_neg (by simp [hno]), hres]
    dsimp only
    rw [if_neg hno]
    exact ⟨b', H', c, hplace, hpos ▸ hstored, hH, hpsize, hr.bytes, hr.inline⟩
  rw [if_neg (by simp [hno]), hres]
  dsimp only
  rw [if_neg hno]
  exact ⟨b', H', c, hplace, hpos ▸ hstored, hH, hpsize, hr.bytes, hr.inline⟩

/-! ## Replacing and deleting -/

theorem map_eraseIdx {γ δ : Type} (f : γ → δ) (n : ℕ) (xs : List γ) :
    (xs.eraseIdx n).map f = (xs.map f).eraseIdx n := by
  rw [eraseIdx_eq_take_drop_succ, eraseIdx_eq_take_drop_succ, map_append, map_take,
    map_drop]

theorem erase_middle (hcs : cs.map Cell.item = pre ++ xs ++ post)
    (hn : pre.length ≤ n) (hlt : n - pre.length < xs.length) :
    ∃ c ∈ cs, cs[n]? = some c ∧ xs[n - pre.length]? = some c.item ∧
      (cs.eraseIdx n).map Cell.item = pre ++ xs.eraseIdx (n - pre.length) ++ post ∧
      (chainsOf cs).Perm (c.chain ++ chainsOf (cs.eraseIdx n)) ∧
      (cs.eraseIdx n).length + 1 = cs.length := by
  obtain ⟨k, rfl⟩ : ∃ k, n = pre.length + k := ⟨n - pre.length, by omega⟩
  rw [Nat.add_sub_cancel_left] at hlt ⊢
  have hlen := congrArg length hcs
  rw [length_map, length_append, length_append] at hlen
  have hn' : pre.length + k < cs.length := by omega
  have hget : cs[pre.length + k]? = some (cs[pre.length + k]) := getElem?_eq_getElem hn'
  have hitem : xs[k]? = some (cs[pre.length + k]).item := by
    have hmap : (cs.map Cell.item)[pre.length + k]? = some (cs[pre.length + k]).item := by
      rw [getElem?_map, hget, Option.map_some]
    rw [hcs, append_assoc, getElem?_append_right (Nat.le_add_right _ _), Nat.add_sub_cancel_left,
      getElem?_append_left hlt] at hmap
    exact hmap
  refine ⟨cs[pre.length + k], getElem_mem hn', hget, hitem, ?_, ?_, ?_⟩
  · rw [map_eraseIdx, hcs, append_assoc, eraseIdx_append_of_length_le (Nat.le_add_right _ _),
      Nat.add_sub_cancel_left, eraseIdx_append_of_lt_length hlt, append_assoc]
  · have hperm := chainsOf_insertAt (pre.length + k) (cs[pre.length + k]) (cs.eraseIdx (pre.length + k))
    rw [eraseIdx_insertAt hget] at hperm
    exact hperm
  · rw [length_eraseIdx_of_lt hn']
    omega

theorem recIput_replace (h : Stored b H cs)
    (hn : nrec.toNat < cs.length)
    (hroom : RoomFor b nrec data fun index xs => (index, xs.eraseIdx index)) :
    ∃ b' H' c, recIput b nrec data .zero = some b' ∧
      PutDone b H data b' H' c (insertAt nrec.toNat c (cs.eraseIdx nrec.toNat)) := by
  obtain ⟨c, t1, e, t, pre, xs, post, last, around, hstore, hres, ⟨t0, hres0⟩, hr⟩ :=
    h.ready .search (Nat.le_of_lt hn) data
  have hroom' := hroom e t0 hres0
  rw [hr.page] at hroom'
  have hbefore := hr.before
  have hlen := congrArg length hr.items
  rw [length_map, length_append, length_append] at hlen
  have hlt : nrec.toNat - pre.length < xs.length := by
    rcases hr.within with hlt | ⟨hlast, -⟩
    · omega
    · rw [hr.above.post_nil hlast, length_nil] at hlen
      omega
  have hpsize := hr.sizes.psize
  have hmin := h.min_psize
  have hmax := h.max_psize
  have hcut := h.cutoff
  rw [← hpsize] at hmin hmax hcut
  rw [← hr.sizes.ovflsize] at hcut
  obtain ⟨d, hd, hget, hitem, hitems, hchains, hcslen⟩ := erase_middle hr.items hbefore hlt
  rw [← hr.index] at hitem hitems
  have hperm : (around ++ [e.pgno] ++ (d.chain ++ (c.chain ++ chainsOf (cs.eraseIdx nrec.toNat)))).Perm
      (around ++ [e.pgno] ++ (c.chain ++ chainsOf cs)) := by
    refine List.Perm.append_left _ (((hchains.append_left c.chain).trans ?_).symm)
    rw [perm_iff_count]
    intro a
    simp only [count_append]
    omega
  obtain ⟨b1, hdleaf, habove, hbelow, hown, hkeeps, hnrecs, hnextpg⟩ := recDleaf_spec
    (b := { b with tree := t }) hmin hr.above hr.below hitem (hr.holds d hd) (hr.owned.perm hperm)
  have hps1 := hkeeps.sizes.psize
  have hxs : (xs.eraseIdx e.index).length + 1 = xs.length := by
    rw [length_eraseIdx_of_lt (by rw [hr.index]; exact hlt)]
    omega
  have hsize := recBytes_lt hmin hmax data
  rw [← hcut, hr.sizes.ovflsize, ← hr.nbytes, ← hps1] at hsize
  have hroom1 := hroom'.congr (hps1.trans hpsize) (by rw [hnextpg, hr.leaf])
  rw [← hr.nbytes] at hroom1
  have hcount : b1.nrecs = ofNat 32 (cs.eraseIdx nrec.toNat).length := by
    rw [hnrecs, h.count, ← hcslen, ofNat_add]
    exact BitVec.add_sub_cancel _ _
  have hkeep : ∀ q ∈ c.chain ++ chainsOf (cs.eraseIdx nrec.toNat), SamePage (t.pages q) (b1.tree.pages q) :=
    hkeeps.same
  have hsub : ∀ f ∈ cs.eraseIdx nrec.toNat, f ∈ cs := fun f hf => mem_of_mem_eraseIdx hf
  obtain ⟨b', H', hplace, hstored, hH, hps'⟩ := placed (by rw [hps1]; exact hmin) (by rw [hps1]; exact hmax)
    (by rw [hkeeps.sizes.ovflsize, hps1]; exact hcut) habove hbelow hitems
    (fun f hf => (hr.holds f (hsub f hf)).congr hps1 fun q hq =>
      hkeep q (mem_append_right _ (mem_flatMap.mpr ⟨f, hf, hq⟩)))
    (hr.new.congr hps1 fun q hq => hkeep q (mem_append_left _ hq)) hsize
    (by have := hr.index; omega) (fun _ => by rw [hxs]; exact BitVec.add_zero _) hroom1 hown hcount
    (by rw [hcslen]; exact h.small)
  have hpos : pre.length + e.index = nrec.toNat := by
    rw [hr.index]
    omega
  have hless : nrec < b.nrecs := by
    rw [lt_def, h.toNat_nrecs]
    exact hn
  have hnot : ¬ b.nrecs < nrec := by
    rw [lt_def, h.toNat_nrecs]
    omega
  rw [recIput, hstore]
  dsimp only
  rw [if_neg (by simp [hnot]), hres]
  dsimp only
  rw [if_pos hless, hdleaf]
  exact ⟨b', H', c, hplace, hpos ▸ hstored, hr.height ▸ hH, hps'.trans (hps1.trans hpsize), hr.bytes,
    hr.inline⟩

theorem recRdelete_spec (h : Stored b H cs)
    (hn : nrec.toNat < cs.length) :
    ∃ b', recRdelete b nrec = some b' ∧ Stored b' H (cs.eraseIdx nrec.toNat) := by
  obtain ⟨own, hbelow, hown⟩ := h.tree
  obtain ⟨e, t, pre, xs, post, last, around, hres, hr, hheight, -⟩ := recSearch_spec .sdelete h.max_psize
    hbelow hown (by rw [length_map]; exact h.small) (by rw [length_map]; omega : nrec.toNat ≤ _)
  have hbefore := hr.before
  have hlen := congrArg length hr.all_eq
  rw [length_map, length_append, length_append] at hlen
  have hlt : nrec.toNat - pre.length < xs.length := by
    rcases hr.within with hlt | ⟨hlast, -⟩
    · omega
    · rw [hr.above.post_nil hlast, length_nil] at hlen
      omega
  obtain ⟨d, hd, hget, hitem, hitems, hchains, hcslen⟩ := erase_middle hr.all_eq hbefore hlt
  rw [← hr.index] at hitem hitems
  have hps := hr.sizes.psize
  have hholds : ∀ f ∈ cs, f.Holds t := fun f hf => (h.holds f hf).congr hps fun q hq =>
    .of_eq (hr.same q (mem_flatMap.mpr ⟨f, hf, hq⟩))
  have hperm : (around ++ [e.pgno] ++ (d.chain ++ chainsOf (cs.eraseIdx nrec.toNat))).Perm
      (own ++ chainsOf cs) := hr.perm.append hchains.symm
  obtain ⟨b1, hdleaf, habove, hbelow1, hown1, hkeeps, hnrecs, -⟩ := recDleaf_spec
    (b := { b with tree := t }) (by rw [hps]; exact h.min_psize) hr.above hr.below hitem (hholds d hd)
    (hr.owned.perm hperm)
  have hps1 := hkeeps.sizes.psize.trans hps
  have hxs : (xs.eraseIdx e.index).length + 1 = xs.length := by
    rw [length_eraseIdx_of_lt (by rw [hr.index]; exact hlt)]
    omega
  have hzero : ofNat 32 1 + SrchOp.sdelete.delta = 0#32 := by decide
  have htree := habove.isTree hbelow1 (fun _ => by
    rw [← hxs, ofNat_add, BitVec.add_assoc, hzero, BitVec.add_zero]) hown1
  rw [hheight, Nat.zero_add, ← hitems] at htree
  have hsub : ∀ f ∈ cs.eraseIdx nrec.toNat, f ∈ cs := fun f hf => mem_of_mem_eraseIdx hf
  rw [recRdelete, hres]
  refine ⟨b1, hdleaf, htree, fun f hf => ?_, ?_, ?_, ?_, ?_, ?_⟩
  · exact (hholds f (hsub f hf)).congr hkeeps.sizes.psize fun q hq =>
      hkeeps.same q (mem_flatMap.mpr ⟨f, hf, hq⟩)
  · rw [hnrecs, h.count, ← hcslen, ofNat_add]
    exact BitVec.add_sub_cancel _ _
  · have hsmall := h.small
    rw [← hcslen] at hsmall
    exact Nat.lt_of_succ_lt hsmall
  · rw [hps1]
    exact h.min_psize
  · rw [hps1]
    exact h.max_psize
  · rw [hkeeps.sizes.ovflsize, hr.sizes.ovflsize, hps1]
    exact h.cutoff

/-! ## Getting -/

theorem toNat_pred {key : BitVec 32} (hkey : key ≠ 0) : (key - 1).toNat = key.toNat - 1 := by
  have hpos : key.toNat ≠ 0 := fun h => hkey (BitVec.eq_of_toNat_eq (h.trans rfl))
  have hone : (1 : BitVec 32).toNat = 1 := rfl
  rw [BitVec.toNat_sub_of_le (by rw [BitVec.le_def, hone]; omega), hone]

theorem Cell.Holds.recRet (h : c.Holds t) (hmin : 512 ≤ t.psize) :
    recRet t c.item = some c.bytes := by
  obtain ⟨item, chain, bytes⟩ := c
  cases item with
  | data bs =>
    obtain ⟨-, hbytes⟩ := h
    exact congrArg some hbytes
  | bigdata pg size =>
    obtain ⟨hsize, hhead, hchain, -⟩ := h
    have hplen : 0 < t.plen := by
      rw [Tree.plen, btdataoff]
      omega
    rw [Recno.recRet, hsize]
    exact ovflGet_spec hplen hchain hhead

theorem recGet_spec (h : Stored b H cs) {key : BitVec 32} (hkey : key ≠ 0)
    (hle : key.toNat ≤ cs.length) :
    ∃ c, cs[key.toNat - 1]? = some c ∧ recGet b key .zero = some (.success, some c.bytes) := by
  have hpos : key.toNat ≠ 0 := fun h => hkey (BitVec.eq_of_toNat_eq (h.trans rfl))
  have hpred := toNat_pred hkey
  obtain ⟨own, hbelow, hown⟩ := h.tree
  obtain ⟨e, t, pre, xs, post, last, around, hres, hr, -, -⟩ := recSearch_spec .search h.max_psize
    hbelow hown (by rw [length_map]; exact h.small)
    (by rw [length_map, hpred]; omega : (key - 1).toNat ≤ _)
  obtain rfl : t = b.tree := searchLoop_tree hres
  have hbefore := hr.before
  have hlen := congrArg length hr.all_eq
  rw [length_map, length_append, length_append] at hlen
  have hlt : (key - 1).toNat - pre.length < xs.length := by
    rcases hr.within with hlt | ⟨hlast, -⟩
    · omega
    · rw [hr.above.post_nil hlast, length_nil] at hlen
      omega
  obtain ⟨c, hc, hget, hitem, -⟩ := erase_middle hr.all_eq hbefore hlt
  have hitems : (b.tree.pages e.pgno).body.items = xs := by
    rw [hr.below.2.1]
    rfl
  have hnot : ¬ b.nrecs < key := by
    rw [lt_def, h.toNat_nrecs]
    omega
  rw [← hr.index] at hitem
  rw [hpred] at hget
  refine ⟨c, hget, ?_⟩
  rw [recGet, if_neg (fun hor => hor.elim (fun hne => hne rfl) hkey), if_neg hnot, hres]
  dsimp only
  rw [hitems, hitem]
  dsimp only
  rw [(h.holds c hc).recRet h.min_psize, Option.map_some]

end Bsd386.Db.Recno
