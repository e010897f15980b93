import Bsd386.Net.Radix.Trie

/-!
# Radix trees: inserting a key

`rn_insert` compares the new key with one leaf only, the one its search finds. `rnInsert_spec` says
that this is enough: the place at which it stops on the way down is a gap (`Gap`), where a node for
the first differing bit fits between a node and its child. `Shape.splice` then shows that the tree
with the new pair in the gap has the shape again.
-/

namespace Bsd386.Net.Radix

open Function

variable {off L : ℕ} {h : Heap} {live : Set Ptr} {pre : ℕ → Key} {v : Key} {x : Ptr}
  {b p t n : ℕ}

/-- A node for bit `b` and the key `v` fits between the node `p` and its child `x`. -/
structure Gap (off L : ℕ) (h : Heap) (live : Set Ptr) (pre : ℕ → Key) (v : Key) (b p : ℕ)
    (x : Ptr) : Prop where
  mem : .node p ∈ live
  child_eq : child h p (bitAt v (h.nodeB p)) = x
  under : Under off h pre p v
  parent_lt : h.nodeB p < b
  bit_lt : b < 8 * L
  agree : Agree off b v (keyOf h pre x)
  bit_ne : bitAt v b ≠ bitAt (keyOf h pre x) b
  lt_child (i : ℕ) : x = .node i → b < h.nodeB i

/-! ## The way down -/

theorem Shape.descend_spec (hs : Shape off L h live pre) (hp : .node p ∈ live)
    (hf : Finds h v (.node p) t) (hagree : Agree off b v (h.leafKey t))
    (hbit : bitAt v b ≠ bitAt (h.leafKey t) b) (hb : b < 8 * L) (hpb : h.nodeB p < b)
    (hn : 8 * L ≤ h.nodeB p + n) :
    ∃ q x, descend h v b n p = some (q, x) ∧ Gap off L h live pre v b q x := by
  induction n generalizing p with
  | zero => exact absurd (hs.bit_lt hp) (by omega)
  | succ n ih =>
    unfold descend
    have hunder := hs.finds_under hp hf
    have hup : Under off h pre p v := hunder.1.trans (hagree.symm.mono (Nat.le_of_lt hpb))
    obtain ⟨hc⟩ | ⟨hc⟩ := hf
    cases hx : childOf h v p with
    | leaf j =>
      rw [hx] at hc
      cases hc
      refine ⟨p, .leaf t, rfl, hp, hx, hup, hpb, hb, hagree, hbit, nofun⟩
    | node i =>
      have hi : .node i ∈ live := hx ▸ hs.child_mem hp _
      have hlt := hs.child_lt hp _ i hx
      rw [hx] at hc
      by_cases hib : h.nodeB i < b
      · simp only [if_pos hib]
        exact ih hi hc hib (by omega)
      simp only [if_neg hib]
      have hi' := hs.finds_under hi hc
      have hne : h.nodeB i ≠ b := by
        rintro rfl
        exact hbit hi'.2.1.symm
      have hlt' : b < h.nodeB i := by omega
      refine ⟨p, .node i, rfl, hp, hx, hup, hpb, hb, ?_, ?_, ?_⟩
      · exact hagree.trans (hi'.1.symm.mono (Nat.le_of_lt hlt'))
      · have htop := hs.top_le hp
        rw [keyOf, hi'.1 b (by omega) hlt']
        exact hbit
      · rintro k ⟨⟩
        exact hlt'

/-- **Where a key goes.** Either the leaf that the search finds has the key, or there is a gap at
the first bit in which they differ. -/
theorem Shape.rnInsert_spec (hs : Shape off L h live pre) (hL : L ≤ maxkeylen) (hv : vlen v ≤ L) :
    ∃ t, Finds h v (.node 0) t ∧
      (SameBytes off (vlen v) v (h.leafKey t) ∧ rnInsert h v = some ⟨h, t, true⟩ ∨
       ¬ SameBytes off (vlen v) v (h.leafKey t) ∧
        ∃ b p x, Gap off L h live pre v b p x ∧ descend h v b depthFuel 0 = some (p, x) ∧
        (∃ i, firstDiff v (h.leafKey t) (headOff h) (vlen v) = some i ∧
          b = diffBit v (h.leafKey t) i) ∧
        rnInsert h v =
          some ⟨Radix.splice (newLeaf h v h.fresh) v b h.fresh p x, h.fresh, false⟩) := by
  obtain ⟨t, ht⟩ := hs.exists_finds v hs.top_mem
  have hhead : headOff h = off := by rw [headOff, hs.top_bit]; omega
  have hsearch := (hs.rnSearch_iff hL hs.top_mem).mpr ht
  refine ⟨t, ht, ?_⟩
  unfold rnInsert
  rw [hhead]
  cases hd : firstDiff v (h.leafKey t) off (vlen v) with
  | none => exact .inl ⟨firstDiff_eq_none.mp hd, by simp [hsearch, hd]⟩
  | some i =>
    obtain ⟨h1, h2, h3, h4⟩ := firstDiff_eq_some hd
    obtain ⟨b1, b2, b3, b4⟩ := diffBit_spec h3 h4
    -- the search has compared the bit of the top
    have hne : diffBit v (h.leafKey t) i ≠ 8 * off := by
      intro heq
      have := (hs.finds_under hs.top_mem ht).2.1
      rw [hs.top_bit, ← heq] at this
      exact b4 this.symm
    obtain ⟨q, x, hdesc, hgap⟩ := hs.descend_spec (n := depthFuel) hs.top_mem ht b3 b4 (by omega)
      (by rw [hs.top_bit]; omega) (by
        have : depthFuel = 257 := rfl
        have : maxkeylen = 32 := rfl
        omega)
    refine .inr ⟨fun hsame => h3 (hsame i h1 h2), _, q, x, hgap, hdesc, ⟨i, rfl, rfl⟩, ?_⟩
    simp [hsearch, hd, hdesc]

/-! ## The new pair -/

/-- The pointers of the tree with the pair `n` added. -/
def addPair (live : Set Ptr) (n : ℕ) : Set Ptr := insert (.leaf n) (insert (.node n) live)

theorem mem_addPair {y : Ptr} : y ∈ addPair live n ↔ y = .leaf n ∨ y = .node n ∨ y ∈ live := Iff.rfl

theorem splice_eq (h : Heap) (v : Key) (b n p : ℕ) (x : Ptr) :
    splice h v b n p x =
      setNode (setParent (setChild h p (bitAt v (h.nodeB p)) (.node n)) x n) n p b
        (if bitAt v b then x else .leaf n) (if bitAt v b then .leaf n else x) none := rfl

section splice

variable (h : Heap) (v : Key) (b p : ℕ) (x : Ptr)

/-- The tree with a new pair in a gap. -/
def spliced : Heap := splice (newLeaf h v h.fresh) v b h.fresh p x

theorem child_spliced (i : ℕ) (s : Bool) :
    child (spliced h v b p x) i s =
      if i = h.fresh then (if s = bitAt v b then .leaf h.fresh else x)
      else if i = p ∧ s = bitAt v (h.nodeB p) then .node h.fresh else child h i s := by
  unfold spliced
  rw [splice_eq, child_setNode, child_setParent, child_setChild, child_newLeaf]
  have hbit : (newLeaf h v h.fresh).nodeB = h.nodeB := rfl
  rw [hbit]
  cases s <;> cases bitAt v b <;> rfl

theorem parent_spliced (y : Ptr) :
    parent (spliced h v b p x) y =
      if y = .node h.fresh then p else if y = x then h.fresh
      else if y = .leaf h.fresh then h.fresh else parent h y := by
  unfold spliced
  rw [splice_eq, parent_setNode, parent_setParent, parent_setChild, parent_newLeaf]

theorem nodeB_spliced : (spliced h v b p x).nodeB = update h.nodeB h.fresh b := by
  unfold spliced
  rw [splice_eq]
  simp only [setNode, nodeB_setParent, nodeB_setChild]
  rfl

theorem leafKey_spliced : (spliced h v b p x).leafKey = update h.leafKey h.fresh v := by
  unfold spliced
  rw [splice_eq]
  simp only [setNode, leafKey_setParent, leafKey_setChild]
  rfl

end splice

theorem keyOf_spliced (h : Heap) (pre : ℕ → Key) (v : Key) (b p : ℕ) (x y : Ptr) :
    keyOf (spliced h v b p x) (update pre h.fresh v) y =
      if y = .leaf h.fresh ∨ y = .node h.fresh then v else keyOf h pre y := by
  cases y <;> simp [keyOf, leafKey_spliced, update_apply]

theorem Shape.splice (hs : Shape off L h live pre) (hl : .leaf h.fresh ∉ live)
    (hn : .node h.fresh ∉ live) (hgap : Gap off L h live pre v b p x) :
    Shape off L (spliced h v b p x) (addPair live h.fresh) (update pre h.fresh v) := by
  have hx : x ∈ live := hgap.child_eq ▸ hs.child_mem hgap.mem _
  have hpx : parent h x = p := hgap.child_eq ▸ hs.child_parent hgap.mem _
  have hxb : bitAt (keyOf h pre x) (h.nodeB p) = bitAt v (h.nodeB p) :=
    hgap.child_eq ▸ hs.child_bit hgap.mem _
  have hne : ∀ {y}, y ∈ live → y ≠ .leaf h.fresh ∧ y ≠ .node h.fresh := fun hy =>
    ⟨fun heq => hl (heq ▸ hy), fun heq => hn (heq ▸ hy)⟩
  have hnode : ∀ {i}, .node i ∈ live → i ≠ h.fresh := fun hi heq => hn (heq ▸ hi)
  have hleaf : ∀ {j}, .leaf j ∈ live → j ≠ h.fresh := fun hj heq => hl (heq ▸ hj)
  have hmem : ∀ {y}, y ∈ live → y ∈ addPair live h.fresh := fun hy => .inr (.inr hy)
  -- what is not new is as before
  have hbit : ∀ {i}, .node i ∈ live → (spliced h v b p x).nodeB i = h.nodeB i := fun hi => by
    rw [nodeB_spliced, update_of_ne (hnode hi)]
  have hbit' : (spliced h v b p x).nodeB h.fresh = b := by rw [nodeB_spliced, update_self]
  have hkey : ∀ {y}, y ∈ live → keyOf (spliced h v b p x) (update pre h.fresh v) y =
      keyOf h pre y := fun hy => by
    rw [keyOf_spliced, if_neg (by simpa using hne hy)]
  have hpre : ∀ {i}, .node i ∈ live → update pre h.fresh v i = pre i := fun hi =>
    update_of_ne (hnode hi) _ _
  have hchild : ∀ {i s}, .node i ∈ live → ¬ (i = p ∧ s = bitAt v (h.nodeB p)) →
      child (spliced h v b p x) i s = child h i s := fun hi hp => by
    rw [child_spliced, if_neg (hnode hi), if_neg hp]
  have hparent : ∀ {y}, y ∈ live → y ≠ x → parent (spliced h v b p x) y = parent h y :=
    fun hy hyx => by
      rw [parent_spliced, if_neg (hne hy).2, if_neg hyx, if_neg (hne hy).1]
  have hparent' : parent (spliced h v b p x) x = h.fresh := by
    rw [parent_spliced, if_neg (hne hx).2, if_pos rfl]
  have h0 : x ≠ .node 0 := by
    rintro rfl
    have := hgap.lt_child 0 rfl
    have := hgap.parent_lt
    have := hs.top_le hgap.mem
    rw [hs.top_bit] at *
    omega
  refine Shape.of_hangs (hmem hs.top_mem) ?_ ?_ (hmem hs.zeros_mem) ?_ (hmem hs.ones_mem) ?_ ?_ ?_
  · exact (hparent hs.top_mem h0.symm).trans hs.top_parent
  · exact (hbit hs.top_mem).trans hs.top_bit
  · rw [leafKey_spliced, update_of_ne (hleaf hs.zeros_mem)]
    exact hs.zeros_key
  · rw [leafKey_spliced, update_of_ne (hleaf hs.ones_mem)]
    exact hs.ones_key
  · intro i s hi
    rcases mem_addPair.mp hi with hi | hi | hi
    · exact absurd hi nofun
    · -- the children of the new node
      obtain rfl := Ptr.node.inj hi
      refine ⟨hbit'.symm ▸ hgap.bit_lt, ?_⟩
      rw [child_spliced, if_pos rfl]
      by_cases hsb : s = bitAt v b
      · rw [if_pos hsb]
        refine ⟨.inl rfl, ?_, ?_, ?_, nofun⟩
        · rw [parent_spliced, if_neg nofun, if_neg (hne hx).1.symm, if_pos rfl]
        · rw [Under, keyOf_spliced, if_pos (.inl rfl), update_self]
          exact .refl _ _ _
        · rw [keyOf_spliced, if_pos (.inl rfl), hbit', hsb]
      · rw [if_neg hsb]
        refine ⟨hmem hx, hparent', ?_, ?_, fun k hk => ?_⟩
        · rw [Under, hkey hx, update_self, hbit']
          exact hgap.agree
        · rw [hkey hx, hbit']
          have := hgap.bit_ne
          revert this hsb
          cases s <;> cases bitAt v b <;> simp
        · subst hk
          rw [hbit', hbit hx]
          exact hgap.lt_child k rfl
    · refine ⟨(hbit hi).symm ▸ hs.bit_lt hi, ?_⟩
      by_cases hps : i = p ∧ s = bitAt v (h.nodeB p)
      · -- the new node itself
        obtain ⟨rfl, rfl⟩ := hps
        rw [child_spliced, if_neg (hnode hi), if_pos ⟨rfl, rfl⟩]
        refine ⟨.inr (.inl rfl), ?_, ?_, ?_, fun k hk => ?_⟩
        · rw [parent_spliced, if_pos rfl]
        · rw [Under, keyOf_spliced, if_pos (.inr rfl), hbit hi, hpre hi]
          exact hgap.under
        · rw [keyOf_spliced, if_pos (.inr rfl), hbit hi]
        · obtain rfl := Ptr.node.inj hk
          rw [hbit hi, hbit']
          exact hgap.parent_lt
      · rw [hchild hi hps]
        have hc := hs.hangs hi s
        have hcx : child h i s ≠ x := by
          intro heq
          have hp := hc.parent_eq
          have hb := hc.bit
          rw [heq, hpx] at hp
          subst hp
          rw [heq, hxb] at hb
          exact hps ⟨rfl, hb.symm⟩
        refine ⟨hmem hc.mem, (hparent hc.mem hcx).trans hc.parent_eq, ?_, ?_, fun k hk => ?_⟩
        · rw [Under, hkey hc.mem, hbit hi, hpre hi]
          exact hc.under
        · rw [hkey hc.mem, hbit hi]
          exact hc.bit
        · rw [hbit hi, hbit (hk ▸ hc.mem)]
          exact hc.lt k hk
  · intro y hy hy0
    by_cases hyx : y = x
    · subst hyx
      rw [hparent']
      refine ⟨.inr (.inl rfl), !bitAt v b, ?_⟩
      rw [child_spliced, if_pos rfl, if_neg (by simp)]
    rcases mem_addPair.mp hy with rfl | rfl | hy
    · rw [parent_spliced, if_neg nofun, if_neg hyx, if_pos rfl]
      refine ⟨.inr (.inl rfl), bitAt v b, ?_⟩
      rw [child_spliced, if_pos rfl, if_pos rfl]
    · rw [parent_spliced, if_pos rfl]
      refine ⟨hmem hgap.mem, bitAt v (h.nodeB p), ?_⟩
      rw [child_spliced, if_neg (hnode hgap.mem), if_pos ⟨rfl, rfl⟩]
    · rw [hparent hy hyx]
      have hup := hs.up_mem hy hy0
      obtain ⟨s, hsy⟩ := hs.up_child hy hy0
      refine ⟨hmem hup, s, (hchild hup ?_).trans hsy⟩
      rintro ⟨h1, h2⟩
      rw [h1, h2, hgap.child_eq] at hsy
      exact hyx hsy.symm

/-! ## What else is stored -/

/-- The fields of the memory that do not make the tree. -/
structure Data where
  leafB : ℕ → ℤ
  leafRoot : ℕ → Bool
  leafMask : ℕ → Option ℕ
  leafDup : ℕ → Option ℕ
  leafMk : ℕ → Option ℕ
  nodeMk : ℕ → Option ℕ
  rmB : ℕ → ℤ
  rmMask : ℕ → ℕ
  rmRefs : ℕ → ℤ
  rmNext : ℕ → Option ℕ
  fresh : ℕ
  mfresh : ℕ

/-- The fields of the memory that do not make the tree. -/
def Heap.data (h : Heap) : Data where
  leafB := h.leafB
  leafRoot := h.leafRoot
  leafMask := h.leafMask
  leafDup := h.leafDup
  leafMk := h.leafMk
  nodeMk := h.nodeMk
  rmB := h.rmB
  rmMask := h.rmMask
  rmRefs := h.rmRefs
  rmNext := h.rmNext
  fresh := h.fresh
  mfresh := h.mfresh

theorem data_setChild (h : Heap) (p : ℕ) (r : Bool) (x : Ptr) :
    (setChild h p r x).data = h.data := by
  cases r <;> rfl

theorem data_setParent (h : Heap) (x : Ptr) (n : ℕ) : (setParent h x n).data = h.data := by
  cases x <;> rfl

theorem data_setNode (h : Heap) (n p b : ℕ) (l r : Ptr) (mk : Option ℕ) :
    (setNode h n p b l r mk).data =
      { h.data with nodeMk := update h.nodeMk n mk } := rfl

theorem data_spliced (h : Heap) (v : Key) (b p : ℕ) (x : Ptr) :
    (spliced h v b p x).data =
      { (newLeaf h v h.fresh).data with nodeMk := update h.nodeMk h.fresh none } := by
  unfold spliced
  rw [splice_eq, data_setNode, data_setParent, data_setChild]
  have hmk : (setParent (setChild (newLeaf h v h.fresh) p
      (bitAt v ((newLeaf h v h.fresh).nodeB p)) (.node h.fresh)) x h.fresh).nodeMk = h.nodeMk :=
    congrArg Data.nodeMk ((data_setParent _ _ _).trans (data_setChild _ _ _ _))
  rw [hmk]

/-! ## The first tree -/

def firstLive : Set Ptr := {.node 0, .leaf 0, .leaf 1}

theorem shape_rnInithead (hoff : off < L) :
    Shape off L (rnInithead (8 * off)) firstLive (fun _ => rnZeros) := by
  have hchild : ∀ s, child (rnInithead (8 * off)) 0 s = .leaf (if s then 1 else 0) := by
    intro s
    cases s <;> rfl
  refine Shape.of_hangs (.inl rfl) rfl rfl (.inr (.inl rfl)) rfl (.inr (.inr rfl)) rfl ?_ ?_
  · intro i s hi
    have hi0 : i = 0 := by simpa [firstLive] using hi
    subst hi0
    refine ⟨?_, ?_⟩
    · show 8 * off < 8 * L
      omega
    · rw [hchild]
      refine ⟨?_, rfl, agree_of_le (Nat.le_refl _), ?_, nofun⟩
      · cases s
        · exact .inr (.inl rfl)
        · exact .inr (.inr rfl)
      · cases s
        · exact bitAt_of_zero rfl
        · exact bitAt_of_ones rfl
  · rintro y (rfl | rfl | rfl) hy0
    · exact absurd rfl hy0
    · exact ⟨.inl rfl, false, hchild false⟩
    · exact ⟨.inl rfl, true, hchild true⟩

end Bsd386.Net.Radix
