import Bsd386.Db.Btree.Halves
import Bsd386.Db.Recno.Basic
import Mathlib.Tactic.Ring
import Mathlib.Data.List.Flatten

/-!
# The levels of a recno tree

`Below` says what is below a page, and `Above` what is around it, up to the root, along the stack of parents
of a search. The last leaf page has no next one. The counts of the entries are right but for the last entry of each level: appending a record
does not add to it, and nothing reads it.
-/

namespace Bsd386.Db.Recno

open List Btree

variable {P : ℕ → Bool → List RLeaf → List ℕ → Prop} {last : Bool} {ks : List Kid}
  {t t' : Tree RLeaf RInternal} {h pg : ℕ} {items post pre : List RLeaf} {own : List ℕ} {w : BitVec 32}
  {stack : List (ℕ × ℕ)}

/-! ## Below a page -/

/-- An entry of an internal page, with the items and the pages below it. -/
structure Kid where
  entry : RInternal
  items : List RLeaf
  own : List ℕ

def itemsOf (ks : List Kid) : List RLeaf := ks.flatMap Kid.items

def ownOf (ks : List Kid) : List ℕ := ks.flatMap Kid.own

/-- The entry leads to what is below it. Its count is right if it is not the last one of its level. -/
structure Kid.Ok (P : ℕ → Bool → List RLeaf → List ℕ → Prop) (last : Bool) (k : Kid) : Prop where
  below : P k.entry.pgno last k.items k.own
  count : last = false → k.entry.nrecs = BitVec.ofNat 32 k.items.length

/-- The entries lead to what is below them. -/
def Kids (P : ℕ → Bool → List RLeaf → List ℕ → Prop) (last : Bool) : List Kid → Prop
  | [] => True
  | k :: ks => k.Ok P (last && ks.isEmpty) ∧ Kids P last ks

/-- There is room on the page for what is on it. -/
def Fits (t : Tree RLeaf RInternal) (b : Body RLeaf RInternal) : Prop :=
  recLayout.used b ≤ t.psize - btdataoff ∧ ∀ x ∈ b.items, nrleaf x < (t.psize - btdataoff) / 2

/-- The items and the pages below the page `pg`, at the given height over the leaf pages; whether the page
is the last one of its level. -/
def Below (t : Tree RLeaf RInternal) : ℕ → ℕ → Bool → List RLeaf → List ℕ → Prop
  | 0, pg, last, items, own => own = [pg] ∧ (t.pages pg).body = .leaf items ∧ Fits t (.leaf items) ∧
      (last = true → (t.pages pg).nextpg = 0)
  | h + 1, pg, last, items, own => ∃ ks, ks ≠ [] ∧ (t.pages pg).body = .internal (ks.map Kid.entry) ∧
      Fits t (.internal (ks.map Kid.entry)) ∧ items = itemsOf ks ∧ own = pg :: ownOf ks ∧
      Kids (Below t h) last ks

@[simp] theorem itemsOf_append (ks ks' : List Kid) : itemsOf (ks ++ ks') = itemsOf ks ++ itemsOf ks' :=
  flatMap_append

@[simp] theorem itemsOf_nil : itemsOf [] = [] := rfl

@[simp] theorem itemsOf_cons (k : Kid) (ks : List Kid) : itemsOf (k :: ks) = k.items ++ itemsOf ks := rfl

@[simp] theorem ownOf_append (ks ks' : List Kid) : ownOf (ks ++ ks') = ownOf ks ++ ownOf ks' :=
  flatMap_append

@[simp] theorem ownOf_nil : ownOf [] = [] := rfl

@[simp] theorem ownOf_cons (k : Kid) (ks : List Kid) : ownOf (k :: ks) = k.own ++ ownOf ks := rfl

theorem Kids.append {ks' : List Kid} :
    Kids P last (ks ++ ks') ↔ Kids P (last && ks'.isEmpty) ks ∧ Kids P last ks' := by
  induction ks with
  | nil => simp [Kids]
  | cons k ks ih =>
    have hempty : (last && (ks ++ ks').isEmpty) = ((last && ks'.isEmpty) && ks.isEmpty) := by
      cases ks with
      | nil => simp
      | cons k ks => simp
    rw [cons_append, Kids, Kids, ih, hempty, and_assoc]

theorem Kids.imp {P' : ℕ → Bool → List RLeaf → List ℕ → Prop}
    (h : Kids P last ks)
    (himp : ∀ k ∈ ks, ∀ l, P k.entry.pgno l k.items k.own → P' k.entry.pgno l k.items k.own) :
    Kids P' last ks := by
  induction ks with
  | nil => exact trivial
  | cons k ks ih =>
    obtain ⟨⟨hbelow, hcount⟩, hrest⟩ := h
    exact ⟨⟨himp k mem_cons_self _ hbelow, hcount⟩,
      ih hrest fun k hk => himp k (mem_cons_of_mem _ hk)⟩

theorem Fits.congr {b : Body RLeaf RInternal} (h : Fits t b)
    (hpsize : t'.psize = t.psize) : Fits t' b := by
  rw [Fits, hpsize]
  exact h

theorem Below.congr (hpsize : t'.psize = t.psize)
    (hb : Below t h pg last items own)
    (hsame : ∀ q ∈ own, SamePage (t.pages q) (t'.pages q)) : Below t' h pg last items own := by
  induction h generalizing pg last items own with
  | zero =>
    obtain ⟨rfl, hbody, hfits, hlast⟩ := hb
    have hpg := hsame pg mem_cons_self
    exact ⟨rfl, hpg.body.trans hbody, hfits.congr hpsize, fun hl => hpg.nextpg.trans (hlast hl)⟩
  | succ h ih =>
    obtain ⟨ks, hne, hbody, hfits, hitems, rfl, hkids⟩ := hb
    refine ⟨ks, hne, (hsame pg mem_cons_self).body.trans hbody, hfits.congr hpsize, hitems, rfl,
      hkids.imp fun k hk l hk' => ih hk' fun q hq => hsame q (mem_cons_of_mem pg ?_)⟩
    exact mem_flatMap.mpr ⟨k, hk, hq⟩

theorem Kids.congr (hpsize : t'.psize = t.psize)
    (hk : Kids (Below t h) last ks)
    (hsame : ∀ q ∈ ownOf ks, SamePage (t.pages q) (t'.pages q)) : Kids (Below t' h) last ks :=
  hk.imp fun _ hmem _ hbelow => hbelow.congr hpsize fun q hq =>
    hsame q (mem_flatMap.mpr ⟨_, hmem, hq⟩)

theorem Below.mem_own
    (hb : Below t h pg last items own) : pg ∈ own := by
  cases h with
  | zero =>
    obtain ⟨rfl, -⟩ := hb
    exact mem_cons_self
  | succ h =>
    obtain ⟨ks, -, -, -, -, rfl, -⟩ := hb
    exact mem_cons_self

theorem Kids.recTotal
    (h : Kids P false ks) :
    recTotal (ks.map Kid.entry) = BitVec.ofNat 32 (itemsOf ks).length := by
  induction ks with
  | nil => rfl
  | cons k ks ih =>
    obtain ⟨hk, hrest⟩ := h
    rw [map_cons, Recno.recTotal, ih hrest, hk.count rfl, itemsOf_cons, length_append,
      BitVec.ofNat_add]

/-- **The counts that a split makes** are right for a page that is not the last one of its level. -/
theorem Below.childCount
    (hb : Below t h pg false items own) :
    childCount (t.pages pg).body = BitVec.ofNat 32 items.length := by
  cases h with
  | zero =>
    obtain ⟨-, hbody, -, -⟩ := hb
    rw [hbody]
    rfl
  | succ h =>
    obtain ⟨ks, -, hbody, -, rfl, -, hkids⟩ := hb
    rw [hbody]
    exact hkids.recTotal

theorem Below.height_lt
    (hb : Below t h pg last items own) : h < own.length := by
  induction h generalizing pg last items own with
  | zero =>
    obtain ⟨rfl, -⟩ := hb
    exact Nat.zero_lt_one
  | succ h ih =>
    obtain ⟨ks, hne, -, -, -, rfl, hkids⟩ := hb
    obtain ⟨k, ks, rfl⟩ := exists_cons_of_ne_nil hne
    have hlt := ih hkids.1.below
    rw [length_cons, ownOf_cons, length_append]
    omega

/-! ## Around a page -/

/-- The page `p` has at the index `i` an entry for the page `pg`, with `w` as its count, between the
entries `L` and `R`. -/
structure Frame (t : Tree RLeaf RInternal) (h p pg : ℕ) (w : BitVec 32) (lastP : Bool) (L : List Kid)
    (e : RInternal) (R : List Kid) : Prop where
  pgno : e.pgno = pg
  body : (t.pages p).body = .internal (L.map Kid.entry ++ e :: R.map Kid.entry)
  fits : Fits t (.internal (L.map Kid.entry ++ e :: R.map Kid.entry))
  left : Kids (Below t h) false L
  right : Kids (Below t h) lastP R
  count : (lastP && R.isEmpty) = false → e.nrecs = w

/-- What is around the page `pg` at the height `h`, which has `w` items: the items before and behind it, and
the other pages. The stack has the page above and the index of the entry first.
Source: __rec_search -/
inductive Above (t : Tree RLeaf RInternal) : List (ℕ × ℕ) → ℕ → ℕ → BitVec 32 → Bool → List RLeaf →
    List RLeaf → List ℕ → Prop
  | root (h : ℕ) (w : BitVec 32) : Above t [] h pRoot w true [] [] []
  | step {h p pg : ℕ} {w : BitVec 32} {lastP : Bool} {L : List Kid} {e : RInternal} {R : List Kid}
      {stack : List (ℕ × ℕ)} {pre post : List RLeaf} {own : List ℕ}
      (frame : Frame t h p pg w lastP L e R)
      (above : Above t stack (h + 1) p
        (BitVec.ofNat 32 (itemsOf L).length + w + BitVec.ofNat 32 (itemsOf R).length) lastP pre post own) :
      Above t ((p, L.length) :: stack) h pg w (lastP && R.isEmpty) (pre ++ itemsOf L) (itemsOf R ++ post)
        (own ++ p :: (ownOf L ++ ownOf R))

theorem Frame.congr (hpsize : t'.psize = t.psize) {p : ℕ}
    {lastP : Bool} {L : List Kid} {e : RInternal} {R : List Kid}
    (hf : Frame t h p pg w lastP L e R)
    (hsame : ∀ q ∈ p :: (ownOf L ++ ownOf R), SamePage (t.pages q) (t'.pages q)) :
    Frame t' h p pg w lastP L e R where
  pgno := hf.pgno
  body := (hsame p mem_cons_self).body.trans hf.body
  fits := hf.fits.congr hpsize
  left := hf.left.congr hpsize fun q hq => hsame q (mem_cons_of_mem p (mem_append_left _ hq))
  right := hf.right.congr hpsize fun q hq => hsame q (mem_cons_of_mem p (mem_append_right _ hq))
  count := hf.count

theorem Above.congr (hpsize : t'.psize = t.psize)
   
    (ha : Above t stack h pg w last pre post own)
    (hsame : ∀ q ∈ own, SamePage (t.pages q) (t'.pages q)) :
    Above t' stack h pg w last pre post own := by
  induction ha with
  | root h w => exact .root h w
  | step hframe habove ih =>
    exact .step (hframe.congr hpsize fun q hq => hsame q (mem_append_right _ hq))
      (ih fun q hq => hsame q (mem_append_left _ hq))

theorem Above.post_nil
    (ha : Above t stack h pg w last pre post own)
    (hlast : last = true) : post = [] := by
  induction ha with
  | root h w => rfl
  | @step h p pg w lastP L e R stack pre post own hframe habove ih =>
    obtain ⟨hl, hr⟩ := (Bool.and_eq_true_iff ..).mp hlast
    rw [isEmpty_iff.mp hr, ih hl]
    rfl

theorem Above.root_mem
    (ha : Above t stack h pg w last pre post own)
    (hstack : stack ≠ []) : pRoot ∈ own := by
  induction ha with
  | root h w => exact absurd rfl hstack
  | @step h p pg w lastP L e R stack pre post own hframe habove ih =>
    cases habove with
    | root => exact mem_cons_self
    | step hf ha => exact mem_append_left _ (ih (cons_ne_nil _ _))

theorem Above.nil
    (ha : Above t [] h pg w last pre post own) :
    pg = pRoot ∧ pre = [] ∧ post = [] ∧ own = [] := by
  cases ha
  exact ⟨rfl, rfl, rfl, rfl⟩

theorem Above.close
    {own' : List ℕ}
    (ha : Above t stack h pg w last pre post own) (hb : Below t h pg last items own')
    (hw : last = false → w = BitVec.ofNat 32 items.length) :
    ∃ all, Below t (h + stack.length) pRoot true (pre ++ items ++ post) all ∧ all.Perm (own ++ own') := by
  induction ha generalizing items own' with
  | root h w => exact ⟨own', by rwa [nil_append, append_nil], .refl _⟩
  | @step h p pg w lastP L e R stack pre post own hframe habove ih =>
    have hkids : Kids (Below t h) lastP (L ++ ⟨e, items, own'⟩ :: R) := by
      refine Kids.append.mpr ⟨?_, ⟨by rw [hframe.pgno]; exact hb, fun hl => ?_⟩, hframe.right⟩
      · rw [isEmpty_cons, Bool.and_false]
        exact hframe.left
      · exact (hframe.count hl).trans (hw hl)
    have hentries : (L ++ ⟨e, items, own'⟩ :: R).map Kid.entry =
        L.map Kid.entry ++ e :: R.map Kid.entry := by
      rw [map_append, map_cons]
    have hbelow : Below t (h + 1) p lastP (itemsOf L ++ items ++ itemsOf R)
        (p :: (ownOf L ++ own' ++ ownOf R)) :=
      ⟨_, by simp, hentries ▸ hframe.body, hentries ▸ hframe.fits, by simp, by simp, hkids⟩
    obtain ⟨all, hall, hperm⟩ := ih hbelow fun hlast => by
      rw [hw (by rw [hlast]; rfl), length_append, length_append, BitVec.ofNat_add,
        BitVec.ofNat_add]
    rw [length_cons, ← Nat.add_assoc, Nat.add_right_comm]
    refine ⟨all, by simpa using hall, hperm.trans ?_⟩
    rw [perm_iff_count]
    intro a
    simp only [count_append, count_cons]
    omega

end Bsd386.Db.Recno
