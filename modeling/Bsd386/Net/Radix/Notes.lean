import Bsd386.Net.Radix.Masks
import Mathlib.Data.Finset.Card

/-!
# Radix trees: annotations

`Lists` says what the lists of annotations of a tree are: each is linked in memory and sorted, no
two have an annotation in common, and the index of an annotation at a node lies behind the bit of
the parent and not behind the bit of the node. `Notes E` says of the routes `E` that each is
annotated at a node above it, or that its mask reaches behind the bit of every such node; and that
an annotation counts the routes that refer to it.
-/

namespace Bsd386.Net.Radix

open Function List Lib.Linked Finset Option

/-- Nothing but annotations has changed. -/
structure Keeps (h h' : Heap) : Prop where
  leafP : h'.leafP = h.leafP
  leafB : h'.leafB = h.leafB
  leafRoot : h'.leafRoot = h.leafRoot
  leafKey : h'.leafKey = h.leafKey
  leafMask : h'.leafMask = h.leafMask
  leafDup : h'.leafDup = h.leafDup
  nodeP : h'.nodeP = h.nodeP
  nodeB : h'.nodeB = h.nodeB
  nodeL : h'.nodeL = h.nodeL
  nodeR : h'.nodeR = h.nodeR
  fresh : h'.fresh = h.fresh

/-- The lists of annotations of a tree. Source: rn_mklist -/
structure Lists (h masks : Heap) (mlive live : Set Ptr) (list : ℕ → List ℕ) : Prop where
  linked {i : ℕ} : .node i ∈ live → Linked h.rmNext (h.nodeMk i) (list i)
  disjoint {i j m : ℕ} : .node i ∈ live → .node j ∈ live → m ∈ list i → m ∈ list j → i = j
  lt {i m : ℕ} : .node i ∈ live → m ∈ list i → m < h.mfresh
  low {i m : ℕ} : .node i ∈ live → m ∈ list i → -1 - (h.nodeB i : ℤ) ≤ h.rmB m
  high {i m : ℕ} : .node i ∈ live → i ≠ 0 → m ∈ list i →
    h.rmB m < -1 - (h.nodeB (h.nodeP i) : ℤ)
  sorted {i : ℕ} : .node i ∈ live → (list i).Pairwise fun a b => h.rmB a ≤ h.rmB b
  mask {i m : ℕ} : .node i ∈ live → m ∈ list i →
    IsMask mlive (h.rmMask m) ∧ h.rmB m = masks.leafB (h.rmMask m)

/-- The routes `E` of a tree and their annotations. Source: rn_mklist -/
structure Notes (off : ℕ) (h masks : Heap) (mlive live : Set Ptr) (pre : ℕ → Key)
    (list : ℕ → List ℕ) (E : Set ℕ) : Prop where
  mask {e M : ℕ} : e ∈ E → h.leafMask e = some M → IsMask mlive M ∧ h.leafB e = masks.leafB M
  noted {e m : ℕ} : e ∈ E → h.leafMk e = some m →
    ∃ i, .node i ∈ live ∧ Under off h pre i (h.leafKey e) ∧ m ∈ list i ∧
      h.leafMask e = some (h.rmMask m)
  unnoted {e M i : ℕ} : e ∈ E → h.leafMk e = none → h.leafMask e = some M → .node i ∈ live →
    Under off h pre i (h.leafKey e) → masks.leafB M < -1 - (h.nodeB i : ℤ)
  refs {i m : ℕ} : .node i ∈ live → m ∈ list i →
    ∃ u : Finset ℕ, (∀ e, e ∈ u ↔ e ∈ E ∧ h.leafMk e = some m) ∧ h.rmRefs m + 1 = u.card

variable {off L : ℕ} {h h' masks : Heap} {mlive live : Set Ptr} {pre : ℕ → Key}
  {list : ℕ → List ℕ} {E : Set ℕ} {i j m M n t tt x : ℕ} {prev q : Option ℕ} {l₁ l₂ : List ℕ}

/-! ## Memory -/

theorem Keeps.refl (h : Heap) : Keeps h h := ⟨rfl, rfl, rfl, rfl, rfl, rfl, rfl, rfl, rfl, rfl, rfl⟩

theorem Keeps.trans {h'' : Heap} (h1 : Keeps h h') (h2 : Keeps h' h'') : Keeps h h'' :=
  ⟨h2.leafP.trans h1.leafP, h2.leafB.trans h1.leafB, h2.leafRoot.trans h1.leafRoot,
    h2.leafKey.trans h1.leafKey, h2.leafMask.trans h1.leafMask, h2.leafDup.trans h1.leafDup,
    h2.nodeP.trans h1.nodeP, h2.nodeB.trans h1.nodeB, h2.nodeL.trans h1.nodeL,
    h2.nodeR.trans h1.nodeR, h2.fresh.trans h1.fresh⟩

theorem Shape.keeps (hs : Shape off L h live pre) (hk : Keeps h h') : Shape off L h' live pre :=
  hs.frame hk.leafP hk.leafKey hk.nodeP hk.nodeB hk.nodeL hk.nodeR

theorem under_congr (hb : h'.nodeB = h.nodeB) (k : Key) :
    Under off h' pre i k ↔ Under off h pre i k := by
  rw [Under, Under, hb]

section

variable (h : Heap) (x : ℕ) (prev q : Option ℕ)

theorem keeps_storeMk : Keeps h (storeMk h x prev q) := by
  cases prev <;> exact ⟨rfl, rfl, rfl, rfl, rfl, rfl, rfl, rfl, rfl, rfl, rfl⟩

theorem nodeMk_storeMk :
    (storeMk h x prev q).nodeMk =
      update h.nodeMk x (relinkHead prev (h.nodeMk x) q) := by
  cases prev with
  | none => rfl
  | some m => exact (update_eq_self x h.nodeMk).symm

theorem rmNext_storeMk :
    (storeMk h x prev q).rmNext = relinkNext prev h.rmNext q := by
  cases prev <;> rfl

theorem storeMk_rest :
    (storeMk h x prev q).rmB = h.rmB ∧ (storeMk h x prev q).rmMask = h.rmMask ∧
      (storeMk h x prev q).rmRefs = h.rmRefs ∧ (storeMk h x prev q).mfresh = h.mfresh ∧
      (storeMk h x prev q).leafMk = h.leafMk := by
  cases prev <;> exact ⟨rfl, rfl, rfl, rfl, rfl⟩

end

/-! ## A route without annotation -/

theorem Lists.congr (hl : Lists h masks mlive live list) (h1 : h'.rmNext = h.rmNext)
    (h2 : h'.nodeMk = h.nodeMk) (h3 : h'.mfresh = h.mfresh) (h4 : h'.rmB = h.rmB)
    (h5 : h'.rmMask = h.rmMask) (h6 : h'.nodeB = h.nodeB) (h7 : h'.nodeP = h.nodeP) :
    Lists h' masks mlive live list := by
  constructor
  · rw [h1, h2]; exact hl.linked
  · exact hl.disjoint
  · rw [h3]; exact hl.lt
  · rw [h4, h6]; exact hl.low
  · rw [h4, h6, h7]; exact hl.high
  · rw [h4]; exact hl.sorted
  · rw [h4, h5]; exact hl.mask

section

variable (hn : Notes off h masks mlive live pre list E)
include hn

theorem Notes.insert_unnoted (hmk : h.leafMk tt = none)
    (hmask : ∀ M, h.leafMask tt = some M → IsMask mlive M ∧ h.leafB tt = masks.leafB M)
    (hfar : ∀ M i, h.leafMask tt = some M → .node i ∈ live → Under off h pre i (h.leafKey tt) →
      masks.leafB M < -1 - (h.nodeB i : ℤ)) :
    Notes off h masks mlive live pre list (insert tt E) where
  mask := by
    rintro e M (rfl | he) hM
    · exact hmask M hM
    · exact hn.mask he hM
  noted := by
    rintro e m (rfl | he) hm
    · rw [hmk] at hm
      exact absurd hm nofun
    · exact hn.noted he hm
  unnoted := by
    rintro e M i (rfl | he) h1 h2 h3 h4
    · exact hfar M i h2 h3 h4
    · exact hn.unnoted he h1 h2 h3 h4
  refs := by
    intro i m hi hm
    obtain ⟨u, hu, hcard⟩ := hn.refs hi hm
    refine ⟨u, fun e => ?_, hcard⟩
    rw [hu e]
    constructor
    · rintro ⟨he, h1⟩
      exact ⟨.inr he, h1⟩
    · rintro ⟨rfl | he, h1⟩
      · rw [hmk] at h1
        exact absurd h1 nofun
      · exact ⟨he, h1⟩

theorem Notes.erase_unnoted (hmk : h.leafMk tt = none) :
    Notes off h masks mlive live pre list (E \ {tt}) where
  mask he := hn.mask he.1
  noted he := hn.noted he.1
  unnoted he := hn.unnoted he.1
  refs := by
    intro i m hi hm
    obtain ⟨u, hu, hcard⟩ := hn.refs hi hm
    refine ⟨u, fun e => ?_, hcard⟩
    rw [hu e]
    constructor
    · rintro ⟨he, h1⟩
      refine ⟨⟨he, ?_⟩, h1⟩
      rintro rfl
      rw [hmk] at h1
      exact absurd h1 nofun
    · rintro ⟨he, h1⟩
      exact ⟨he.1, h1⟩

/-! ## Annotating a route -/

theorem Notes.insert_ref (hl : Lists h masks mlive live list) (htt : tt ∉ E) (hx : .node x ∈ live)
    (hm : m ∈ list x) (hu : Under off h pre x (h.leafKey tt))
    (hmask : h.leafMask tt = some (h.rmMask m)) (hM : h.leafB tt = masks.leafB (h.rmMask m))
    (hg : h' = { h with
      rmRefs := update h.rmRefs m (h.rmRefs m + 1)
      leafMk := update h.leafMk tt (some m) }) :
    Notes off h' masks mlive live pre list (insert tt E) := by
  have hmk : ∀ e ∈ E, h'.leafMk e = h.leafMk e := by
    rintro e he
    subst hg
    refine update_of_ne ?_ _ _
    rintro rfl
    exact htt he
  have hmk' : h'.leafMk tt = some m := by
    subst hg
    exact update_self _ _ _
  have hrefs : h'.rmRefs = update h.rmRefs m (h.rmRefs m + 1) := by rw [hg]
  obtain ⟨e1, e2, e3, e4, e5⟩ : h'.leafMask = h.leafMask ∧ h'.leafB = h.leafB ∧
      h'.leafKey = h.leafKey ∧ h'.nodeB = h.nodeB ∧ h'.rmMask = h.rmMask := by
    subst hg
    exact ⟨rfl, rfl, rfl, rfl, rfl⟩
  constructor
  · rw [e1, e2]
    rintro e M (rfl | he) h1
    · obtain rfl := some.inj (hmask.symm.trans h1)
      exact ⟨(hl.mask hx hm).1, hM⟩
    · exact hn.mask he h1
  · rintro e m' (rfl | he) h1
    · obtain rfl := some.inj (hmk'.symm.trans h1)
      rw [e1, e3, e5]
      exact ⟨x, hx, (under_congr e4 _).mpr hu, hm, hmask⟩
    · rw [hmk e he] at h1
      obtain ⟨i, a1, a2, a3, a4⟩ := hn.noted he h1
      rw [e1, e3, e5]
      exact ⟨i, a1, (under_congr e4 _).mpr a2, a3, a4⟩
  · rw [e1, e3, e4]
    rintro e M i (rfl | he) h1 h2 h3 h4
    · rw [hmk'] at h1
      exact absurd h1 nofun
    · rw [hmk e he] at h1
      exact hn.unnoted he h1 h2 h3 ((under_congr e4 _).mp h4)
  · intro i m' hi hm'
    obtain ⟨u, hu', hcard⟩ := hn.refs hi hm'
    have hother : ∀ e, e ∈ insert tt E ∧ h'.leafMk e = some m' ↔
        e = tt ∧ m' = m ∨ e ∈ E ∧ h.leafMk e = some m' := by
      intro e
      constructor
      · rintro ⟨rfl | he, h1⟩
        · exact .inl ⟨rfl, some.inj (h1.symm.trans hmk')⟩
        · exact .inr ⟨he, by rw [← hmk e he]; exact h1⟩
      · rintro (⟨rfl, rfl⟩ | ⟨he, h1⟩)
        · exact ⟨.inl rfl, hmk'⟩
        · exact ⟨.inr he, by rw [hmk e he]; exact h1⟩
    by_cases hmm : m' = m
    · subst hmm
      have hnotin : tt ∉ u := fun h => htt ((hu' tt).mp h).1
      refine ⟨insert tt u, fun e => ?_, ?_⟩
      · rw [hother, mem_insert, hu' e]
        simp
      · rw [hrefs, update_self, card_insert_of_notMem hnotin]
        omega
    · refine ⟨u, fun e => ?_, ?_⟩
      · rw [hother, hu' e]
        simp [hmm]
      · rw [hrefs, update_of_ne hmm]
        exact hcard

end

/-- The memory with a new annotation behind the prefix `l₁` of the list of `x`, to which nothing
refers yet. -/
def putMask (h : Heap) (x M : ℕ) (b : ℤ) (l₁ l₂ : List ℕ) : Heap :=
  { storeMk (mkGet h b M l₂.head?) x l₁.getLast? (some h.mfresh) with
    rmRefs := update h.rmRefs h.mfresh (-1) }

theorem putMask_fields (h : Heap) (x M : ℕ) (b : ℤ) (l₁ l₂ : List ℕ) :
    (putMask h x M b l₁ l₂).rmB = update h.rmB h.mfresh b ∧
      (putMask h x M b l₁ l₂).rmMask = update h.rmMask h.mfresh M ∧
      (putMask h x M b l₁ l₂).mfresh = h.mfresh + 1 ∧
      (putMask h x M b l₁ l₂).leafMk = h.leafMk ∧
      (putMask h x M b l₁ l₂).rmNext = relinkNext l₁.getLast?
        (update h.rmNext h.mfresh l₂.head?) (some h.mfresh) ∧
      (putMask h x M b l₁ l₂).nodeMk =
        update h.nodeMk x (relinkHead l₁.getLast? (h.nodeMk x) (some h.mfresh)) := by
  obtain ⟨h1, h2, -, h4, h5⟩ := storeMk_rest (mkGet h b M l₂.head?) x l₁.getLast? (some h.mfresh)
  exact ⟨h1, h2, h4, h5, rmNext_storeMk _ _ _ _, nodeMk_storeMk _ _ _ _⟩

theorem keeps_putMask (h : Heap) (x M : ℕ) (b : ℤ) (l₁ l₂ : List ℕ) :
    Keeps h (putMask h x M b l₁ l₂) := by
  obtain ⟨a1, a2, a3, a4, a5, a6, a7, a8, a9, a10, a11⟩ :=
    keeps_storeMk (mkGet h b M l₂.head?) x l₁.getLast? (some h.mfresh)
  exact ⟨a1, a2, a3, a4, a5, a6, a7, a8, a9, a10, a11⟩

theorem Lists.putMask (hl : Lists h masks mlive live list) (hx : .node x ∈ live)
    (hM : IsMask mlive M) (hlist : list x = l₁ ++ l₂) (h1 : ∀ a ∈ l₁, h.rmB a ≤ masks.leafB M)
    (h2 : ∀ a ∈ l₂, masks.leafB M ≤ h.rmB a) (hlow : -1 - (h.nodeB x : ℤ) ≤ masks.leafB M)
    (hhigh : x ≠ 0 → masks.leafB M < -1 - (h.nodeB (h.nodeP x) : ℤ)) :
    Lists (putMask h x M (masks.leafB M) l₁ l₂) masks mlive live
      (update list x (l₁ ++ h.mfresh :: l₂)) := by
  obtain ⟨hB, hMask, hfresh, -, hnext, hmk⟩ := putMask_fields h x M (masks.leafB M) l₁ l₂
  have hkeep := keeps_putMask h x M (masks.leafB M) l₁ l₂
  -- an annotation is the new one or an old one of the same node
  have hcases : ∀ {i m}, m ∈ update list x (l₁ ++ h.mfresh :: l₂) i →
      i = x ∧ m = h.mfresh ∨ m ∈ list i := by
    intro i m hm
    by_cases hix : i = x
    · subst hix
      rw [update_self] at hm
      rw [hlist]
      rcases mem_append.mp hm with hm | hm
      · exact .inr (mem_append_left _ hm)
      · rcases mem_cons.mp hm with hm | hm
        · exact .inl ⟨rfl, hm⟩
        · exact .inr (mem_append_right _ hm)
    · rw [update_of_ne hix] at hm
      exact .inr hm
  have hold : ∀ {i m}, .node i ∈ live → m ∈ list i → m ≠ h.mfresh := fun hi hm heq =>
    absurd (hl.lt hi hm) (by omega)
  constructor
  · intro i hi
    rw [hnext, hmk]
    have hcongr : ∀ {i}, .node i ∈ live →
        Linked (update h.rmNext h.mfresh l₂.head?) (h.nodeMk i) (list i) := fun hi =>
      (hl.linked hi).congr fun m hm => update_of_ne (hold hi hm) _ _
    refine Linked.store hlist (hcongr hx) ?_ ?_ (hcongr hi) ?_
    · -- the new annotation leads to the rest of the list
      refine ⟨rfl, ?_⟩
      rw [update_self]
      have hx' := hcongr hx
      rw [hlist] at hx'
      obtain ⟨q, hq⟩ := hx'.append_right
      exact hq.head_eq ▸ hq
    · intro m hm hm'
      have hnd := (hl.linked hx).nodup
      rw [hlist] at hnd
      have hmx : m ∈ list x := hlist ▸ mem_append_left _ hm
      rcases mem_cons.mp hm' with rfl | hm'
      · exact hold hx hmx rfl
      · exact (nodup_append.mp hnd).2.2 m hm m hm' rfl
    · intro hix m hm hm'
      exact hix (hl.disjoint hi hx hm (hlist ▸ mem_append_left _ hm'))
  · intro i j m hi hj hmi hmj
    rcases hcases hmi with ⟨hix, hm⟩ | hmi'
    · rcases hcases hmj with ⟨hjx, -⟩ | hmj'
      · rw [hix, hjx]
      · exact absurd hm (hold hj hmj')
    · rcases hcases hmj with ⟨-, hm⟩ | hmj'
      · exact absurd hm (hold hi hmi')
      · exact hl.disjoint hi hj hmi' hmj'
  · intro i m hi hm
    rw [hfresh]
    rcases hcases hm with ⟨-, rfl⟩ | hm
    · omega
    · have := hl.lt hi hm
      omega
  · intro i m hi hm
    rw [hB, hkeep.nodeB]
    rcases hcases hm with ⟨rfl, rfl⟩ | hm
    · rw [update_self]
      exact hlow
    · rw [update_of_ne (hold hi hm)]
      exact hl.low hi hm
  · intro i m hi h0 hm
    rw [hB, hkeep.nodeB, hkeep.nodeP]
    rcases hcases hm with ⟨rfl, rfl⟩ | hm
    · rw [update_self]
      exact hhigh h0
    · rw [update_of_ne (hold hi hm)]
      exact hl.high hi h0 hm
  · intro i hi
    rw [hB]
    have hsame : ∀ {i}, .node i ∈ live → (list i).Pairwise fun a b =>
        update h.rmB h.mfresh (masks.leafB M) a ≤
          update h.rmB h.mfresh (masks.leafB M) b := fun hi =>
      (hl.sorted hi).imp_of_mem fun ha hb hab => by
        rw [update_of_ne (hold hi ha), update_of_ne (hold hi hb)]
        exact hab
    by_cases hix : i = x
    · subst hix
      rw [update_self]
      have hs := hsame hi
      rw [hlist] at hs
      obtain ⟨s1, s2, s3⟩ := pairwise_append.mp hs
      refine pairwise_append.mpr ⟨s1, pairwise_cons.mpr ⟨fun a ha => ?_, s2⟩, ?_⟩
      · rw [update_self, update_of_ne
          (hold hi (hlist ▸ mem_append_right _ ha))]
        exact h2 a ha
      · intro a ha b hb
        rcases mem_cons.mp hb with rfl | hb
        · rw [update_self, update_of_ne
            (hold hi (hlist ▸ mem_append_left _ ha))]
          exact h1 a ha
        · exact s3 a ha b hb
    · rw [update_of_ne hix]
      exact hsame hi
  · intro i m hi hm
    rw [hB, hMask]
    rcases hcases hm with ⟨rfl, rfl⟩ | hm
    · rw [update_self, update_self]
      exact ⟨hM, rfl⟩
    · rw [update_of_ne (hold hi hm), update_of_ne (hold hi hm)]
      exact hl.mask hi hm

theorem Notes.putMask (hn : Notes off h masks mlive live pre list E)
    (hl : Lists h masks mlive live list) (hx : .node x ∈ live) (hlist : list x = l₁ ++ l₂)
    (b : ℤ) :
    Notes off (putMask h x M b l₁ l₂) masks mlive live pre
      (update list x (l₁ ++ h.mfresh :: l₂)) E := by
  obtain ⟨-, hMask, -, hleaf, -, -⟩ := putMask_fields h x M b l₁ l₂
  have hkeep := keeps_putMask h x M b l₁ l₂
  have hold : ∀ {i m}, .node i ∈ live → m ∈ list i → m ≠ h.mfresh := fun hi hm heq =>
    absurd (hl.lt hi hm) (by omega)
  have hmem : ∀ {i m}, m ∈ list i → m ∈ update list x (l₁ ++ h.mfresh :: l₂) i := by
    intro i m hm
    by_cases hix : i = x
    · subst hix
      rw [update_self]
      rw [hlist] at hm
      rcases mem_append.mp hm with hm | hm
      · exact mem_append_left _ hm
      · exact mem_append_right _ (mem_cons_of_mem _ hm)
    · rwa [update_of_ne hix]
  constructor
  · rw [hkeep.leafMask, hkeep.leafB]
    exact hn.mask
  · intro e m he h1
    rw [hleaf] at h1
    obtain ⟨i, a1, a2, a3, a4⟩ := hn.noted he h1
    rw [hkeep.leafMask, hkeep.leafKey, hMask, update_of_ne (hold a1 a3)]
    exact ⟨i, a1, (under_congr hkeep.nodeB _).mpr a2, hmem a3, a4⟩
  · intro e M i he h1 h2 h3 h4
    rw [hleaf] at h1
    rw [hkeep.leafMask] at h2
    rw [hkeep.leafKey] at h4
    rw [hkeep.nodeB]
    exact hn.unnoted he h1 h2 h3 ((under_congr hkeep.nodeB _).mp h4)
  · intro i m hi hm
    rw [hleaf]
    have hr : (Radix.putMask h x M b l₁ l₂).rmRefs = update h.rmRefs h.mfresh (-1) := rfl
    rw [hr]
    by_cases hm' : m = h.mfresh
    · -- no route refers to it
      subst hm'
      refine ⟨∅, fun e => ?_, by rw [update_self, card_empty]; rfl⟩
      simp only [notMem_empty, false_iff, not_and]
      intro he h1
      obtain ⟨i, a1, -, a3, -⟩ := hn.noted he h1
      exact hold a1 a3 rfl
    · have hmi : m ∈ list i := by
        by_cases hix : i = x
        · subst hix
          rw [update_self] at hm
          rw [hlist]
          rcases mem_append.mp hm with hm | hm
          · exact mem_append_left _ hm
          · exact mem_append_right _ ((mem_cons.mp hm).resolve_left hm')
        · rwa [update_of_ne hix] at hm
      rw [update_of_ne hm']
      exact hn.refs hi hmi

/-- The memory with a new annotation for the route `tt`, stored at the place `prev` of the list of
`x`.
Source: rn_addroute -/
def noteNew (h : Heap) (x tt M : ℕ) (prev next : Option ℕ) : Heap :=
  let h' := storeMk (mkGet h (h.leafB tt) M next) x prev (some h.mfresh)
  { h' with leafMk := update h'.leafMk tt (some h.mfresh) }

theorem note_new (hl : Lists h masks mlive live list) (hn : Notes off h masks mlive live pre list E)
    (htt : tt ∉ E) (hx : .node x ∈ live) (hlist : list x = l₁ ++ l₂)
    (hu : Under off h pre x (h.leafKey tt)) (hM : IsMask mlive M) (hmask : h.leafMask tt = some M)
    (hB : h.leafB tt = masks.leafB M) (h1 : ∀ a ∈ l₁, h.rmB a ≤ masks.leafB M)
    (h2 : ∀ a ∈ l₂, masks.leafB M ≤ h.rmB a) (hlow : -1 - (h.nodeB x : ℤ) ≤ masks.leafB M)
    (hhigh : x ≠ 0 → masks.leafB M < -1 - (h.nodeB (h.nodeP x) : ℤ))
    (hg : h' = noteNew h x tt M l₁.getLast? l₂.head?) :
    Keeps h h' ∧ Lists h' masks mlive live (update list x (l₁ ++ h.mfresh :: l₂)) ∧
      Notes off h' masks mlive live pre (update list x (l₁ ++ h.mfresh :: l₂))
        (insert tt E) := by
  obtain ⟨f1, f2, f3, f4, f5, f6⟩ := putMask_fields h x M (masks.leafB M) l₁ l₂
  have hkeep := keeps_putMask h x M (masks.leafB M) l₁ l₂
  have hl' := hl.putMask hx hM hlist h1 h2 hlow hhigh
  have hn' := hn.putMask (M := M) hl hx hlist (masks.leafB M)
  -- the reference of the route makes the count right
  have heq : h' = { putMask h x M (masks.leafB M) l₁ l₂ with
      rmRefs := update (putMask h x M (masks.leafB M) l₁ l₂).rmRefs h.mfresh
        ((putMask h x M (masks.leafB M) l₁ l₂).rmRefs h.mfresh + 1)
      leafMk := update (putMask h x M (masks.leafB M) l₁ l₂).leafMk tt
        (some h.mfresh) } := by
    have hr : (putMask h x M (masks.leafB M) l₁ l₂).rmRefs =
        update h.rmRefs h.mfresh (-1) := rfl
    rw [hg, hr, update_self, update_idem, f4]
    unfold putMask noteNew
    rw [hB]
    cases l₁.getLast? <;> rfl
  refine ⟨?_, ?_, ?_⟩
  · subst heq
    obtain ⟨a1, a2, a3, a4, a5, a6, a7, a8, a9, a10, a11⟩ := hkeep
    exact ⟨a1, a2, a3, a4, a5, a6, a7, a8, a9, a10, a11⟩
  · refine hl'.congr ?_ ?_ ?_ ?_ ?_ ?_ ?_ <;> rw [heq]
  · refine hn'.insert_ref hl' htt hx (m := h.mfresh) ?_ ?_ ?_ ?_ heq
    · rw [update_self]
      exact mem_append_right _ (mem_cons_self ..)
    · rw [hkeep.leafKey]
      exact (under_congr hkeep.nodeB _).mpr hu
    · rw [hkeep.leafMask, f2, update_self]
      exact hmask
    · rw [hkeep.leafB, f2, update_self]
      exact hB

theorem Lists.le_of_head (hl : Lists h masks mlive live list) (hx : .node x ∈ live)
    (hlist : list x = l₁ ++ l₂) {b : ℤ} (hhead : ∀ a, l₂.head? = some a → b ≤ h.rmB a) :
    ∀ a ∈ l₂, b ≤ h.rmB a := by
  have hs := hl.sorted hx
  rw [hlist] at hs
  have hs2 := (pairwise_append.mp hs).2.1
  cases l₂ with
  | nil => exact fun a ha => absurd ha not_mem_nil
  | cons c l₂ =>
    have hc := hhead c rfl
    intro a ha
    rcases mem_cons.mp ha with rfl | ha
    · exact hc
    · exact hc.trans (List.rel_of_pairwise_cons hs2 ha)

theorem Shape.under_iff {k k' : Key} (hs : Shape off L h live pre) (hi : .node i ∈ live)
    (hk : SameBytes off L k k') : Under off h pre i k ↔ Under off h pre i k' := by
  have hagree := (agree_mul_iff.mpr hk).mono (Nat.le_of_lt (hs.bit_lt hi))
  exact ⟨fun hu => hu.trans hagree, fun hu => hu.trans hagree.symm⟩

/-- **Lifting.** The new route `tt` in the chain of the leaf `j` is annotated at the highest node
where its mask allows it. -/
theorem lift_spec (hs : Shape off L h live pre) (hL : L ≤ maxkeylen)
    (hl : Lists h masks mlive live list) (hn : Notes off h masks mlive live pre list E)
    (htt : tt ∉ E) (hj : .leaf j ∈ live) (hkey : SameBytes off L (h.leafKey tt) (h.leafKey j))
    (hM : IsMask mlive M) (hmask : h.leafMask tt = some M) (hB : h.leafB tt = masks.leafB M)
    (hmk : h.leafMk tt = none) :
    ∃ h' list', lift h masks (h.leafP j) tt M = some h' ∧ Keeps h h' ∧
      Lists h' masks mlive live list' ∧ Notes off h' masks mlive live pre list' (insert tt E) := by
  have ht := hs.leafP_mem hj
  have hut : Under off h pre (h.leafP j) (h.leafKey tt) :=
    (hs.under_iff ht hkey).mpr (hs.under_leafP hj)
  unfold lift
  by_cases hfar : (h.nodeB (h.leafP j) : ℤ) < -1 - masks.leafB M
  · -- the mask reaches behind every node above the leaf
    refine ⟨h, list, if_pos hfar, .refl h, hl, hn.insert_unnoted hmk ?_ ?_⟩
    · intro M' hM'
      obtain rfl := some.inj (hmask.symm.trans hM')
      exact ⟨hM, hB⟩
    · intro M' i hM' hi hu
      obtain rfl := some.inj (hmask.symm.trans hM')
      have hle := hs.nodeB_le_of_under hi hj ((hs.under_iff hi hkey).mp hu)
      omega
  · simp only [if_neg hfar]
    have hfuel : h.nodeB (h.leafP j) < depthFuel := by
      have h1 := hs.bit_lt ht
      have h2 : depthFuel = 257 := rfl
      have h3 : maxkeylen = 32 := rfl
      omega
    obtain ⟨x, hx, hxl, hx0, hxb, hxu⟩ := hs.highest_spec (-1 - masks.leafB M) hfuel ht
    have hlow : -1 - (h.nodeB x : ℤ) ≤ masks.leafB M := by
      omega
    have hhigh : x ≠ 0 → masks.leafB M < -1 - (h.nodeB (h.nodeP x) : ℤ) := fun h0 => by
      omega
    have hlen := (hl.linked hxl).length_le fun m hm => hl.lt hxl hm
    obtain ⟨l₁, l₂, hlist, h1, h2, hwalk⟩ := walk_spec
      (fun m => decide (h.leafB tt < h.rmB m) || (decide (h.leafB tt ≤ h.rmB m) &&
        (decide (h.rmMask m = M) || someByteGreater (masks.leafKey M)
          (masks.leafKey (h.rmMask m)) (vlen (masks.leafKey M)))))
      (hl.linked hxl) (Nat.lt_succ_of_le hlen) none
    rw [or_none] at hwalk
    have hle1 : ∀ a ∈ l₁, h.rmB a ≤ masks.leafB M := by
      intro a ha
      have := h1 a ha
      simp only [Bool.or_eq_false_iff, decide_eq_false_iff_not] at this
      omega
    have hle2 : ∀ a ∈ l₂, masks.leafB M ≤ h.rmB a := by
      refine hl.le_of_head hxl hlist fun a ha => ?_
      have := h2 a ha
      simp only [Bool.or_eq_true, Bool.and_eq_true, decide_eq_true_eq] at this
      omega
    have hnew := note_new hl hn htt hxl hlist (hxu _ hut) hM hmask hB hle1 hle2 hlow hhigh rfl
    simp only [hx, hwalk, bind_eq_bind, bind_some]
    cases hhead : l₂.head? with
    | none =>
      rw [hhead] at hnew
      exact ⟨noteNew h x tt M l₁.getLast? none, _, rfl, hnew⟩
    | some m' =>
      by_cases hsame : h.rmB m' ≤ h.leafB tt ∧ h.rmMask m' = M
      · -- the mask is in the list already
        have hm' : m' ∈ list x := hlist ▸ mem_append_right _ (List.mem_of_head? hhead)
        refine ⟨_, list, if_pos hsame, ?_, ?_, ?_⟩
        · exact ⟨rfl, rfl, rfl, rfl, rfl, rfl, rfl, rfl, rfl, rfl, rfl⟩
        · exact hl.congr rfl rfl rfl rfl rfl rfl rfl
        · refine hn.insert_ref hl htt hxl hm' (hxu _ hut) ?_ ?_ rfl
          · rw [hsame.2]
            exact hmask
          · rw [hsame.2]
            exact hB
      · rw [hhead] at hnew
        exact ⟨noteNew h x tt M l₁.getLast? (some m'), _, if_neg hsame, hnew⟩

/-! ## Taking an annotation back -/

theorem Notes.erase_ref (hn : Notes off h masks mlive live pre list E) (htt : tt ∈ E)
    (hmk : h.leafMk tt = some m)
    (hg : h' = { h with rmRefs := update h.rmRefs m (h.rmRefs m - 1) }) :
    Notes off h' masks mlive live pre list (E \ {tt}) := by
  subst hg
  refine ⟨fun he => hn.mask he.1, fun he => hn.noted he.1, fun he => hn.unnoted he.1, ?_⟩
  intro i m' hi hm'
  obtain ⟨u, hu, hcard⟩ := hn.refs hi hm'
  have hother : ∀ e, e ∈ E \ {tt} ∧ h.leafMk e = some m' ↔ e ∈ u ∧ e ≠ tt := by
    intro e
    rw [hu e]
    constructor
    · rintro ⟨⟨he, hne⟩, h1⟩
      exact ⟨⟨he, h1⟩, hne⟩
    · rintro ⟨⟨he, h1⟩, hne⟩
      exact ⟨⟨he, hne⟩, h1⟩
  refine ⟨u.erase tt, fun e => ?_, ?_⟩
  · show _ ↔ e ∈ E \ {tt} ∧ h.leafMk e = some m'
    rw [hother, mem_erase, and_comm]
  · show update h.rmRefs m (h.rmRefs m - 1) m' + 1 = _
    by_cases hmm : m' = m
    · subst hmm
      have hmem : tt ∈ u := (hu tt).mpr ⟨htt, hmk⟩
      have hpos := card_pos.mpr ⟨tt, hmem⟩
      rw [update_self, card_erase_of_mem hmem]
      omega
    rw [update_of_ne hmm, erase_eq_of_notMem]
    · exact hcard
    · intro hmem
      exact hmm (some.inj (((hu tt).mp hmem).2.symm.trans hmk))

theorem Notes.drop_mask (hn : Notes off h masks mlive live pre list E)
    (hl : Lists h masks mlive live list) (hx : .node x ∈ live) (hlist : list x = l₁ ++ m :: l₂)
    (hfree : ∀ e ∈ E, h.leafMk e ≠ some m) (hg : h' = storeMk h x l₁.getLast? (h.rmNext m)) :
    Keeps h h' ∧ Lists h' masks mlive live (update list x (l₁ ++ l₂)) ∧
      Notes off h' masks mlive live pre (update list x (l₁ ++ l₂)) E := by
  have hkeep : Keeps h h' := hg ▸ keeps_storeMk h x _ _
  obtain ⟨hB, hMask, hRefs, hfresh, hleaf⟩ := storeMk_rest h x l₁.getLast? (h.rmNext m)
  have hnext := rmNext_storeMk h x l₁.getLast? (h.rmNext m)
  have hmkl := nodeMk_storeMk h x l₁.getLast? (h.rmNext m)
  rw [← hg] at hB hMask hRefs hfresh hleaf hnext hmkl
  have hxl := hl.linked hx
  have hnd := hxl.nodup
  rw [hlist] at hnd
  have hsub : ∀ {i m'}, m' ∈ update list x (l₁ ++ l₂) i → m' ∈ list i := by
    intro i m' hm'
    by_cases hix : i = x
    · subst hix
      rw [update_self] at hm'
      rw [hlist]
      rcases mem_append.mp hm' with hm' | hm'
      · exact mem_append_left _ hm'
      · exact mem_append_right _ (mem_cons_of_mem _ hm')
    · rwa [update_of_ne hix] at hm'
  have hkept : ∀ {i m'}, m' ∈ list i → m' ≠ m → m' ∈ update list x (l₁ ++ l₂) i := by
    intro i m' hm' hne
    by_cases hix : i = x
    · subst hix
      rw [update_self]
      rw [hlist] at hm'
      rcases mem_append.mp hm' with hm' | hm'
      · exact mem_append_left _ hm'
      · exact mem_append_right _ ((mem_cons.mp hm').resolve_left hne)
    · rwa [update_of_ne hix]
  refine ⟨hkeep, ?_, ?_⟩
  · constructor
    · intro i hi
      rw [hnext, hmkl]
      refine Linked.store hlist hxl ?_ ?_ (hl.linked hi) ?_
      · rw [hlist] at hxl
        exact hxl.next_eq
      · intro a ha ha'
        exact (nodup_append.mp hnd).2.2 a ha a (mem_cons_of_mem _ ha') rfl
      · intro hix a ha ha'
        exact hix (hl.disjoint hi hx ha (hlist ▸ mem_append_left _ ha'))
    · exact fun hi hj hm1 hm2 => hl.disjoint hi hj (hsub hm1) (hsub hm2)
    · rw [hfresh]
      exact fun hi hm => hl.lt hi (hsub hm)
    · rw [hB, hkeep.nodeB]
      exact fun hi hm => hl.low hi (hsub hm)
    · rw [hB, hkeep.nodeB, hkeep.nodeP]
      exact fun hi h0 hm => hl.high hi h0 (hsub hm)
    · intro i hi
      rw [hB]
      by_cases hix : i = x
      · subst hix
        rw [update_self]
        have hs := hl.sorted hi
        rw [hlist] at hs
        exact hs.sublist ((sublist_cons_self m l₂).append_left l₁)
      · rw [update_of_ne hix]
        exact hl.sorted hi
    · rw [hB, hMask]
      exact fun hi hm => hl.mask hi (hsub hm)
  · constructor
    · rw [hkeep.leafMask, hkeep.leafB]
      exact hn.mask
    · intro e m' he h1
      rw [hleaf] at h1
      obtain ⟨i, a1, a2, a3, a4⟩ := hn.noted he h1
      have hne : m' ≠ m := by
        rintro rfl
        exact hfree e he h1
      rw [hkeep.leafMask, hkeep.leafKey, hMask]
      exact ⟨i, a1, (under_congr hkeep.nodeB _).mpr a2, hkept a3 hne, a4⟩
    · intro e M i he h1 h2 h3 h4
      rw [hleaf] at h1
      rw [hkeep.leafMask] at h2
      rw [hkeep.leafKey] at h4
      rw [hkeep.nodeB]
      exact hn.unnoted he h1 h2 h3 ((under_congr hkeep.nodeB _).mp h4)
    · intro i m' hi hm'
      rw [hleaf, hRefs]
      exact hn.refs hi (hsub hm')

theorem walk_mem {next : ℕ → Option ℕ} {p : Option ℕ} {l : List ℕ} (hl : Linked next p l)
    (hn : l.length < n) (hm : m ∈ l) :
    ∃ l₁ l₂, l = l₁ ++ m :: l₂ ∧
      walk next (fun m' => decide (m' = m)) n none p = some (l₁.getLast?, some m) := by
  obtain ⟨l₁, l₂, rfl, h1, h2, hwalk⟩ := walk_spec (fun m' => decide (m' = m)) hl hn none
  rw [or_none] at hwalk
  cases l₂ with
  | nil =>
    rw [append_nil] at hm
    exact absurd (h1 m hm) (by simp)
  | cons c l₂ =>
    obtain rfl : c = m := of_decide_eq_true (h2 c rfl)
    exact ⟨l₁, l₂, rfl, hwalk⟩

/-- `rn_delete` from the last reference on. Source: rn_delete -/
def unliftRest (h : Heap) (saved tt m : ℕ) : Option Heap :=
  if 0 ≤ h.rmRefs m then some h
  else if (h.nodeB (h.leafP saved) : ℤ) < -1 - h.leafB tt then some h
  else do
    let x ← highest h (-1 - h.leafB tt) depthFuel (h.leafP saved)
    let (prev, m') ← walk h.rmNext (fun m' => decide (m' = m)) (h.mfresh + 1) none (h.nodeMk x)
    match m' with
    | none => some h
    | some _ => some (storeMk h x prev (h.rmNext m))

theorem unlift_eq (hmask : h.leafMask tt = some (h.rmMask m)) (hmk : h.leafMk tt = some m) :
    unlift h j tt =
      unliftRest { h with rmRefs := update h.rmRefs m (h.rmRefs m - 1) } j tt m := by
  unfold unlift
  rw [hmask, hmk]
  exact if_neg fun hne => hne rfl

/-- **Taking back.** The route `tt` in the chain of the leaf `j` gives up its annotation, and the
annotation goes with its last route. -/
theorem unlift_spec (hs : Shape off L h live pre) (hL : L ≤ maxkeylen)
    (hl : Lists h masks mlive live list) (hn : Notes off h masks mlive live pre list E)
    (htt : tt ∈ E) (hj : .leaf j ∈ live) (hkey : SameBytes off L (h.leafKey tt) (h.leafKey j)) :
    ∃ h' list', unlift h j tt = some h' ∧ Keeps h h' ∧ h'.leafMk = h.leafMk ∧
      Lists h' masks mlive live list' ∧ Notes off h' masks mlive live pre list' (E \ {tt}) := by
  cases hmask : h.leafMask tt with
  | none =>
    have hmk : h.leafMk tt = none := by
      cases hmk : h.leafMk tt with
      | none => rfl
      | some m =>
        obtain ⟨-, -, -, -, hm⟩ := hn.noted htt hmk
        exact absurd (hmask.symm.trans hm) nofun
    refine ⟨h, list, ?_, .refl h, rfl, hl, hn.erase_unnoted hmk⟩
    rw [unlift, hmask, hmk]
  | some M =>
    cases hmk : h.leafMk tt with
    | none =>
      refine ⟨h, list, ?_, .refl h, rfl, hl, hn.erase_unnoted hmk⟩
      rw [unlift, hmask, hmk]
    | some m =>
      obtain ⟨i, hi, hui, hmi, hM⟩ := hn.noted htt hmk
      obtain rfl := some.inj (hmask.symm.trans hM)
      have hn' := hn.erase_ref htt hmk rfl
      obtain ⟨g, hg⟩ : ∃ g : Heap,
          { h with rmRefs := update h.rmRefs m (h.rmRefs m - 1) } = g := ⟨_, rfl⟩
      have hkeep : Keeps h g := hg ▸ ⟨rfl, rfl, rfl, rfl, rfl, rfl, rfl, rfl, rfl, rfl, rfl⟩
      have hleaf : g.leafMk = h.leafMk := hg ▸ rfl
      have hl' : Lists g masks mlive live list := by
        subst hg
        exact hl.congr rfl rfl rfl rfl rfl rfl rfl
      rw [hg] at hn'
      rw [unlift_eq hmask hmk, hg]
      unfold unliftRest
      by_cases hrefs : 0 ≤ g.rmRefs m
      · exact ⟨g, list, if_pos hrefs, hkeep, hleaf, hl', hn'⟩
      -- the last reference: the annotation is looked for where its index belongs
      simp only [if_neg hrefs]
      have hs' := hs.keeps hkeep
      have hB : h.leafB tt = masks.leafB (h.rmMask m) := (hn.mask htt hmask).2
      have hrmB : h.rmB m = masks.leafB (h.rmMask m) := (hl.mask hi hmi).2
      have hkey' : Under off g pre i (g.leafKey tt) := by
        rw [hkeep.leafKey]
        exact (under_congr hkeep.nodeB _).mpr hui
      have ht : .node (g.leafP j) ∈ live := hs'.leafP_mem hj
      have hut : Under off g pre (g.leafP j) (g.leafKey tt) := by
        have := hs'.under_leafP hj
        rw [hkeep.leafKey] at this ⊢
        exact (hs'.under_iff ht hkey).mpr this
      have hile : g.nodeB i ≤ g.nodeB (g.leafP j) := by
        refine hs'.nodeB_le_of_under hi hj ?_
        rw [hkeep.leafKey] at hkey' ⊢
        exact (hs'.under_iff hi hkey).mp hkey'
      have hlow := hl.low hi hmi
      have hnear : ¬ (g.nodeB (g.leafP j) : ℤ) < -1 - g.leafB tt := by
        rw [hkeep.leafB, hB, ← hrmB]
        rw [hkeep.nodeB] at hile ⊢
        omega
      simp only [if_neg hnear]
      have hfuel : g.nodeB (g.leafP j) < depthFuel := by
        have h1 := hs'.bit_lt ht
        have h2 : depthFuel = 257 := rfl
        have h3 : maxkeylen = 32 := rfl
        omega
      obtain ⟨x, hx, hxl, hx0, hxb, hxu⟩ := hs'.highest_spec (-1 - g.leafB tt) hfuel ht
      obtain rfl : x = i := by
        refine hs'.place_unique hxl hi (hxu _ hut) hkey' (hxb (by omega)) ?_
          (fun h0 => hx0.resolve_left h0) fun h0 => ?_
        · rw [hkeep.leafB, hB, ← hrmB, hkeep.nodeB]
          omega
        · have := hl.high hi h0 hmi
          rw [hkeep.leafB, hB, ← hrmB, hkeep.nodeB, hkeep.nodeP]
          omega
      have hlen := (hl'.linked hi).length_le fun m hm => hl'.lt hi hm
      obtain ⟨l₁, l₂, hlist, hwalk⟩ := walk_mem (hl'.linked hi) (Nat.lt_succ_of_le hlen) hmi
      have hfree : ∀ e ∈ E \ {tt}, g.leafMk e ≠ some m := by
        intro e he hem
        obtain ⟨u, hu, hcard⟩ := hn'.refs hi hmi
        have hpos := card_pos.mpr ⟨e, (hu e).mpr ⟨he, hem⟩⟩
        omega
      obtain ⟨k1, k2, k3⟩ := hn'.drop_mask hl' hi hlist hfree rfl
      refine ⟨_, _, ?_, ?_, ?_, k2, k3⟩
      · simp only [hx, hwalk, bind_eq_bind, bind_some]
      · exact hkeep.trans k1
      · rw [(storeMk_rest _ _ _ _).2.2.2.2]
        exact hleaf

end Bsd386.Net.Radix
