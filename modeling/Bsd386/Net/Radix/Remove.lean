import Bsd386.Net.Radix.Add

/-!
# Radix trees: taking pointers out of a tree

`rn_delete` takes a leaf and its parent out of the tree and gives the place of the parent to the
node that was the leaf's twin; or it replaces the first leaf of a chain by the second, which also
takes over the twin. These are three steps:

* `Shape.moveNode`: a node moves to another place in memory;

`Lists.moved` and `Notes.moved` say that annotations do not depend on the place of a node.
-/

namespace Bsd386.Net.Radix

open Function Lib.Linked

variable {off L : ℕ} {h h' masks : Heap} {mlive live live' : Set Ptr} {pre pre' : ℕ → Key}
  {list : ℕ → List ℕ} {E : Set ℕ} {i j n p t tt x : ℕ} {y : Ptr} {σ : ℕ → ℕ}

/-! ## Renaming nodes -/

/-- The nodes of `live'` are those of `live` under other names. -/
structure Renames (h h' : Heap) (live live' : Set Ptr) (σ : ℕ → ℕ) : Prop where
  mem {j : ℕ} : .node j ∈ live' → .node (σ j) ∈ live
  inj {j k : ℕ} : .node j ∈ live' → .node k ∈ live' → σ j = σ k → j = k
  surj {i : ℕ} : .node i ∈ live → ∃ j, .node j ∈ live' ∧ σ j = i
  nodeB {j : ℕ} : .node j ∈ live' → h'.nodeB j = h.nodeB (σ j)
  parent {j : ℕ} : .node j ∈ live' → j ≠ 0 → σ j ≠ 0 ∧ h'.nodeB (h'.nodeP j) = h.nodeB (h.nodeP (σ j))
  nodeMk {j : ℕ} : .node j ∈ live' → h'.nodeMk j = h.nodeMk (σ j)

/-- Annotations are as before, and nodes have new names. -/
structure Moved (h h' : Heap) (live live' : Set Ptr) (pre pre' : ℕ → Key) (σ : ℕ → ℕ) : Prop
    extends Renames h h' live live' σ where
  pre_eq {j : ℕ} : .node j ∈ live' → pre' j = pre (σ j)
  leafMask : h'.leafMask = h.leafMask
  leafB : h'.leafB = h.leafB
  leafKey : h'.leafKey = h.leafKey
  leafMk : h'.leafMk = h.leafMk
  rmB : h'.rmB = h.rmB
  rmMask : h'.rmMask = h.rmMask
  rmRefs : h'.rmRefs = h.rmRefs
  rmNext : h'.rmNext = h.rmNext
  mfresh : h'.mfresh = h.mfresh

theorem Moved.refl (h : Heap) (live : Set Ptr) (pre : ℕ → Key) : Moved h h live live pre pre id where
  mem hj := hj
  inj _ _ heq := heq
  surj hi := ⟨_, hi, rfl⟩
  nodeB _ := rfl
  parent _ h0 := ⟨h0, rfl⟩
  nodeMk _ := rfl
  pre_eq _ := rfl
  leafMask := rfl
  leafB := rfl
  leafKey := rfl
  leafMk := rfl
  rmB := rfl
  rmMask := rfl
  rmRefs := rfl
  rmNext := rfl
  mfresh := rfl

theorem Moved.trans {h'' : Heap} {live'' : Set Ptr} {pre'' : ℕ → Key} {τ : ℕ → ℕ}
    (h1 : Moved h h' live live' pre pre' σ) (h2 : Moved h' h'' live' live'' pre' pre'' τ) :
    Moved h h'' live live'' pre pre'' (σ ∘ τ) where
  mem hj := h1.mem (h2.mem hj)
  inj hj hk heq := h2.inj hj hk (h1.inj (h2.mem hj) (h2.mem hk) heq)
  surj hi := by
    obtain ⟨j, hj, rfl⟩ := h1.surj hi
    obtain ⟨k, hk, rfl⟩ := h2.surj hj
    exact ⟨k, hk, rfl⟩
  nodeB hj := (h2.nodeB hj).trans (h1.nodeB (h2.mem hj))
  parent hj h0 := by
    obtain ⟨h0', hp⟩ := h2.parent hj h0
    obtain ⟨h0'', hp'⟩ := h1.parent (h2.mem hj) h0'
    exact ⟨h0'', hp.trans hp'⟩
  nodeMk hj := (h2.nodeMk hj).trans (h1.nodeMk (h2.mem hj))
  pre_eq hj := (h2.pre_eq hj).trans (h1.pre_eq (h2.mem hj))
  leafMask := h2.leafMask.trans h1.leafMask
  leafB := h2.leafB.trans h1.leafB
  leafKey := h2.leafKey.trans h1.leafKey
  leafMk := h2.leafMk.trans h1.leafMk
  rmB := h2.rmB.trans h1.rmB
  rmMask := h2.rmMask.trans h1.rmMask
  rmRefs := h2.rmRefs.trans h1.rmRefs
  rmNext := h2.rmNext.trans h1.rmNext
  mfresh := h2.mfresh.trans h1.mfresh

theorem Lists.moved (hl : Lists h masks mlive live list) (hm : Moved h h' live live' pre pre' σ) :
    Lists h' masks mlive live' (list ∘ σ) where
  linked hi := by
    rw [hm.rmNext, hm.nodeMk hi]
    exact hl.linked (hm.mem hi)
  disjoint hi hj hmi hmj := hm.inj hi hj (hl.disjoint (hm.mem hi) (hm.mem hj) hmi hmj)
  lt hi h' := by
    rw [hm.mfresh]
    exact hl.lt (hm.mem hi) h'
  low hi h' := by
    rw [hm.rmB, hm.nodeB hi]
    exact hl.low (hm.mem hi) h'
  high hi h0 h' := by
    obtain ⟨h0', hp⟩ := hm.parent hi h0
    rw [hm.rmB, hp]
    exact hl.high (hm.mem hi) h0' h'
  sorted hi := by
    rw [hm.rmB]
    exact hl.sorted (hm.mem hi)
  mask hi h' := by
    rw [hm.rmB, hm.rmMask]
    exact hl.mask (hm.mem hi) h'

theorem Notes.moved (hn : Notes off h masks mlive live pre list E)
    (hm : Moved h h' live live' pre pre' σ) : Notes off h' masks mlive live' pre' (list ∘ σ) E := by
  have hunder : ∀ {j k}, .node j ∈ live' → (Under off h' pre' j k ↔ Under off h pre (σ j) k) := by
    intro j k hj
    rw [Under, Under, hm.nodeB hj, hm.pre_eq hj]
  constructor
  · rw [hm.leafMask, hm.leafB]
    exact hn.mask
  · rw [hm.leafMask, hm.leafKey, hm.leafMk, hm.rmMask]
    intro e m he hmk
    obtain ⟨i, a1, a2, a3, a4⟩ := hn.noted he hmk
    obtain ⟨j, hj, rfl⟩ := hm.surj a1
    exact ⟨j, hj, (hunder hj).mpr a2, a3, a4⟩
  · rw [hm.leafMask, hm.leafKey, hm.leafMk]
    intro e M i he hmk hM hi hu
    rw [hm.nodeB hi]
    exact hn.unnoted he hmk hM (hm.mem hi) ((hunder hi).mp hu)
  · rw [hm.leafMk, hm.rmRefs]
    exact fun hi h' => hn.refs (hm.mem hi) h'

/-! ## Moving a node -/

/-- The pointers after node `i` has moved to `n`. -/
def moveLive (live : Set Ptr) (i n : ℕ) : Set Ptr := insert (.node n) (live \ {.node i})

theorem moveNode_eq (h : Heap) (i n : ℕ) : ∃ h1,
    h1 = setParent (setParent
      (setNode h n (h.nodeP i) (h.nodeB i) (h.nodeL i) (h.nodeR i) (h.nodeMk i)) (child h i false) n)
      (child h i true) n ∧
    moveNode h i n = setChild h1 (h.nodeP i) (decide (child h1 (h.nodeP i) false ≠ .node i))
      (.node n) := by
  refine ⟨_, rfl, ?_⟩
  simp only [moveNode, update_self, child, Bool.false_eq_true, if_false, if_true]
  rfl

theorem data_moveNode (h : Heap) (i n : ℕ) :
    (moveNode h i n).data = { h.data with nodeMk := update h.nodeMk n (h.nodeMk i) } := by
  obtain ⟨h1, hh1, heq⟩ := moveNode_eq h i n
  rw [heq, data_setChild, hh1, data_setParent, data_setParent, data_setNode]

theorem moveNode_bits (h : Heap) (i n : ℕ) :
    (moveNode h i n).nodeB = update h.nodeB n (h.nodeB i) ∧
      (moveNode h i n).leafKey = h.leafKey := by
  obtain ⟨h1, hh1, heq⟩ := moveNode_eq h i n
  rw [heq, nodeB_setChild, leafKey_setChild, hh1, nodeB_setParent, nodeB_setParent,
    leafKey_setParent, leafKey_setParent]
  exact ⟨rfl, rfl⟩

section move

variable (hs : Shape off L h live pre) (hi : .node i ∈ live) (h0 : i ≠ 0) (hn : .node n ∉ live)

include hs hi h0 hn

theorem Shape.child_moveNode (hj : .node j ∈ live) (s : Bool) :
    child (moveNode h i n) n s = child h i s ∧
      (j ≠ i → child (moveNode h i n) j s =
        if child h j s = .node i then .node n else child h j s) := by
  obtain ⟨h1, hh1, heq⟩ := moveNode_eq h i n
  have hne : Ptr.node i ≠ .node 0 := fun h => h0 (Ptr.node.inj h)
  have hpl := hs.parent_mem hi
  have hpn : h.nodeP i ≠ n := fun h => hn (h ▸ hpl)
  have hchild : ∀ a s, child h1 a s = if a = n then child h i s else child h a s := by
    intro a s
    rw [hh1, child_setParent, child_setParent, child_setNode]
    rfl
  -- the side of `i`
  obtain ⟨s0, hs0⟩ := hs.up_child hi hne
  have hs0' : child h (h.nodeP i) s0 = .node i := hs0
  have hside : decide (child h1 (h.nodeP i) false ≠ .node i) = s0 := by
    rw [hchild, if_neg hpn]
    have hb := hs.child_bit hpl
    cases s0 with
    | false => exact decide_eq_false fun h => h hs0'
    | true =>
      refine decide_eq_true fun hf => ?_
      have h1 := hb true
      have h2 := hb false
      rw [hs0'] at h1
      rw [hf, h1] at h2
      exact absurd h2 (by decide)
  rw [heq, hside]
  constructor
  · rw [child_setChild, if_neg fun hc => hpn hc.1.symm, hchild, if_pos rfl]
  · intro hji
    have hjn : j ≠ n := fun h => hn (h ▸ hj)
    rw [child_setChild, hchild, if_neg hjn]
    by_cases hc : child h j s = .node i
    · have hp := hs.child_parent hj s
      have hb := hs.child_bit hj s
      rw [hc] at hp hb
      have hp' : h.nodeP i = j := hp
      have hb0 := hs.child_bit hpl s0
      rw [hs0', hp', hb] at hb0
      rw [if_pos ⟨hp'.symm, hb0⟩, if_pos hc]
    · rw [if_neg hc, if_neg]
      rintro ⟨rfl, rfl⟩
      exact hc hs0'

theorem Shape.parent_moveNode (hy : y ∈ live) (hyi : y ≠ .node i) :
    parent (moveNode h i n) (.node n) = h.nodeP i ∧
      parent (moveNode h i n) y = if parent h y = i then n else parent h y := by
  obtain ⟨h1, hh1, heq⟩ := moveNode_eq h i n
  have hparent : ∀ y, parent (moveNode h i n) y =
      if y = child h i true then n else if y = child h i false then n
      else if y = .node n then h.nodeP i else parent h y := by
    intro y
    rw [heq, parent_setChild, hh1, parent_setParent, parent_setParent, parent_setNode]
  have hcn : ∀ s, Ptr.node n ≠ child h i s := fun s heq => hn (heq ▸ hs.child_mem hi s)
  constructor
  · rw [hparent, if_neg (hcn true), if_neg (hcn false), if_pos rfl]
  · rw [hparent]
    by_cases hp : parent h y = i
    · have hy0 : y ≠ .node 0 := by
        rintro rfl
        exact h0 (hp.symm.trans hs.top_parent)
      obtain ⟨s, hs'⟩ := hs.up_child hy hy0
      rw [hp] at hs'
      rw [if_pos hp]
      cases s with
      | true => rw [if_pos hs'.symm]
      | false =>
        by_cases ht : y = child h i true
        · rw [if_pos ht]
        · rw [if_neg ht, if_pos hs'.symm]
    · have hc : ∀ s, y ≠ child h i s := by
        rintro s rfl
        exact hp (hs.child_parent hi s)
      have hyn : y ≠ .node n := fun h => hn (h ▸ hy)
      rw [if_neg hp, if_neg (hc true), if_neg (hc false), if_neg hyn]

theorem Shape.moveNode :
    Shape off L (moveNode h i n) (moveLive live i n) (update pre n (pre i)) := by
  have hne : Ptr.node i ≠ .node 0 := fun h => h0 (Ptr.node.inj h)
  obtain ⟨hB, hK⟩ := moveNode_bits h i n
  have hnode : ∀ {j}, .node j ∈ live → j ≠ n := fun hj heq => hn (heq ▸ hj)
  have hmem : ∀ {y}, y ∈ live → y ≠ .node i → y ∈ moveLive live i n := fun hy hyi => .inr ⟨hy, hyi⟩
  have hbit : ∀ {j}, .node j ∈ live → (Radix.moveNode h i n).nodeB j = h.nodeB j := fun hj => by
    rw [hB, update_of_ne (hnode hj)]
  have hbitn : (Radix.moveNode h i n).nodeB n = h.nodeB i := by rw [hB, update_self]
  have hkey : ∀ {y}, y ∈ live →
      keyOf (Radix.moveNode h i n) (update pre n (pre i)) y = keyOf h pre y := by
    rintro (j | j) hy
    · exact congrFun hK j
    · exact update_of_ne (hnode hy) _ _
  have hkeyn : keyOf (Radix.moveNode h i n) (update pre n (pre i)) (.node n) = pre i :=
    update_self _ _ _
  have hparn := (hs.parent_moveNode hi h0 hn hs.top_mem hne.symm).1
  have hpar : ∀ {y}, y ∈ live → y ≠ .node i →
      parent (Radix.moveNode h i n) y = if parent h y = i then n else parent h y := fun hy hyi =>
    (hs.parent_moveNode hi h0 hn hy hyi).2
  have hchn : ∀ s, child (Radix.moveNode h i n) n s = child h i s := fun s =>
    (hs.child_moveNode hi h0 hn hi s).1
  have hch : ∀ {j}, .node j ∈ live → j ≠ i → ∀ s, child (Radix.moveNode h i n) j s =
      if child h j s = .node i then .node n else child h j s := fun hj hji s =>
    (hs.child_moveNode hi h0 hn hj s).2 hji
  have hpi : h.nodeP i ≠ i := fun heq => by
    have hlt := hs.parent_lt hi h0
    rw [heq] at hlt
    exact Nat.lt_irrefl _ hlt
  have hself : ∀ s, child h i s ≠ .node i := fun s heq =>
    Nat.lt_irrefl _ (hs.child_lt hi s i heq)
  refine Shape.of_hangs (hmem hs.top_mem hne.symm) ?_ ?_ (hmem hs.zeros_mem nofun) ?_
    (hmem hs.ones_mem nofun) ?_ ?_ ?_
  · have htop := hpar hs.top_mem hne.symm
    rw [show parent h (.node 0) = 0 from hs.top_parent, if_neg h0.symm] at htop
    exact htop
  · rw [hbit hs.top_mem, hs.top_bit]
  · rw [hK, hs.zeros_key]
  · rw [hK, hs.ones_key]
  · rintro j s (hj | ⟨hj, hji⟩)
    · obtain rfl := Ptr.node.inj hj
      have hc := hs.hangs hi s
      rw [hchn, hbitn]
      refine ⟨hs.bit_lt hi, hmem hc.mem (hself s), ?_, ?_, ?_, fun k hk => ?_⟩
      · rw [hpar hc.mem (hself s), if_pos hc.parent_eq]
      · rw [Under, hkey hc.mem, hbitn, update_self]
        exact hc.under
      · rw [hkey hc.mem, hbitn]
        exact hc.bit
      · rw [hbitn, hbit (hk ▸ hc.mem)]
        exact hc.lt k hk
    · have hji' : j ≠ i := fun h => hji (congrArg Ptr.node h)
      have hc := hs.hangs hj s
      rw [hch hj hji', hbit hj]
      refine ⟨hs.bit_lt hj, ?_⟩
      by_cases hci : child h j s = .node i
      · rw [if_pos hci]
        rw [hci] at hc
        refine ⟨.inl rfl, hparn.trans hc.parent_eq, ?_, ?_, ?_⟩
        · rw [Under, hkeyn, hbit hj, update_of_ne (hnode hj)]
          exact hc.under
        · rw [hkeyn, hbit hj]
          exact hc.bit
        · rintro k hk
          obtain rfl := Ptr.node.inj hk
          rw [hbit hj, hbitn]
          exact hc.lt i rfl
      · rw [if_neg hci]
        refine ⟨hmem hc.mem hci, ?_, ?_, ?_, fun k hk => ?_⟩
        · rw [hpar hc.mem hci, hc.parent_eq, if_neg hji']
        · rw [Under, hkey hc.mem, hbit hj, update_of_ne (hnode hj)]
          exact hc.under
        · rw [hkey hc.mem, hbit hj]
          exact hc.bit
        · rw [hbit hj, hbit (hk ▸ hc.mem)]
          exact hc.lt k hk
  · rintro y (rfl | ⟨hy, hyi⟩) hy0
    · rw [hparn]
      have hpl := hs.parent_mem hi
      obtain ⟨s, hs'⟩ := hs.up_child hi hne
      refine ⟨hmem hpl fun h => hpi (Ptr.node.inj h), s, ?_⟩
      rw [hch hpl hpi]
      exact if_pos hs'
    · have hpl := hs.up_mem hy hy0
      obtain ⟨s, hs'⟩ := hs.up_child hy hy0
      rw [hpar hy hyi]
      by_cases hp : parent h y = i
      · rw [if_pos hp]
        refine ⟨.inl rfl, s, ?_⟩
        rw [hchn, ← hp, hs']
      rw [if_neg hp]
      refine ⟨hmem hpl fun h => hp (Ptr.node.inj h), s, ?_⟩
      rw [hch hpl hp, hs']
      exact if_neg hyi

theorem Shape.renames_moveNode :
    Renames h (Radix.moveNode h i n) live (moveLive live i n) (fun j => if j = n then i else j) := by
  have hne : Ptr.node i ≠ .node 0 := fun h => h0 (Ptr.node.inj h)
  obtain ⟨hB, -⟩ := moveNode_bits h i n
  have hMk : (Radix.moveNode h i n).nodeMk = update h.nodeMk n (h.nodeMk i) :=
    congrArg Data.nodeMk (data_moveNode h i n)
  have hnode : ∀ {j}, .node j ∈ live → j ≠ n := fun hj heq => hn (heq ▸ hj)
  have hcases : ∀ {j}, .node j ∈ moveLive live i n → j = n ∨ .node j ∈ live ∧ j ≠ i ∧ j ≠ n := by
    rintro j (hj | ⟨hj, hji⟩)
    · exact .inl (Ptr.node.inj hj)
    · exact .inr ⟨hj, fun h => hji (congrArg Ptr.node h), hnode hj⟩
  constructor
  · intro j hj
    rcases hcases hj with rfl | ⟨hj, -, hjn⟩
    · simp only [if_true]
      exact hi
    · simp only [if_neg hjn]
      exact hj
  · intro j k hj hk hjk
    rcases hcases hj with rfl | ⟨-, hji, hjn⟩ <;> rcases hcases hk with rfl | ⟨-, hki, hkn⟩
    · rfl
    · simp only [if_true, if_neg hkn] at hjk
      exact absurd hjk.symm hki
    · simp only [if_true, if_neg hjn] at hjk
      exact absurd hjk hji
    · simpa only [if_neg hjn, if_neg hkn] using hjk
  · intro a ha
    by_cases hai : a = i
    · exact ⟨n, .inl rfl, by rw [if_pos rfl, hai]⟩
    · exact ⟨a, .inr ⟨ha, fun h => hai (Ptr.node.inj h)⟩, if_neg (hnode ha)⟩
  · intro j hj
    rw [hB]
    rcases hcases hj with rfl | ⟨-, -, hjn⟩
    · rw [update_self, if_pos rfl]
    · rw [update_of_ne hjn, if_neg hjn]
  · intro j hj hj0
    rcases hcases hj with rfl | ⟨hj, hji, hjn⟩
    · rw [if_pos rfl]
      refine ⟨h0, ?_⟩
      have hp : (Radix.moveNode h i j).nodeP j = h.nodeP i :=
        (hs.parent_moveNode hi h0 hn hs.top_mem hne.symm).1
      rw [hp, hB, update_of_ne (hnode (hs.parent_mem hi))]
    rw [if_neg hjn]
    refine ⟨hj0, ?_⟩
    have hp : (Radix.moveNode h i n).nodeP j = if h.nodeP j = i then n else h.nodeP j :=
      (hs.parent_moveNode hi h0 hn hj fun h => hji (Ptr.node.inj h)).2
    rw [hp, hB]
    by_cases hpi : h.nodeP j = i
    · rw [if_pos hpi, update_self, hpi]
    · rw [if_neg hpi, update_of_ne (hnode (hs.parent_mem hj))]
  · intro j hj
    rw [hMk]
    rcases hcases hj with rfl | ⟨-, -, hjn⟩
    · rw [update_self, if_pos rfl]
    · rw [update_of_ne hjn, if_neg hjn]

theorem Shape.moved_moveNode : Moved h (Radix.moveNode h i n) live (moveLive live i n) pre
    (update pre n (pre i)) (fun j => if j = n then i else j) := by
  have hdata := data_moveNode h i n
  refine ⟨hs.renames_moveNode hi h0 hn, fun {j} _ => ?_, congrArg Data.leafMask hdata,
    congrArg Data.leafB hdata, (moveNode_bits h i n).2, congrArg Data.leafMk hdata,
    congrArg Data.rmB hdata, congrArg Data.rmMask hdata, congrArg Data.rmRefs hdata,
    congrArg Data.rmNext hdata, congrArg Data.mfresh hdata⟩
  by_cases hjn : j = n
  · rw [if_pos hjn, hjn, update_self]
  · rw [if_neg hjn, update_of_ne hjn]

end move

/-! ## Replacing a leaf -/

/-- The leaf `x` in the place of the leaf `tt`. Source: rn_delete -/
def replaceLeaf (h : Heap) (tt x : ℕ) : Heap :=
  let t := h.leafP tt
  let h := { h with leafP := update h.leafP x t }
  setChild h t (decide (h.nodeL t ≠ .leaf tt)) (.leaf x)

/-- The pointers with a leaf replaced. -/
def replaceLive (live : Set Ptr) (tt x : ℕ) : Set Ptr := insert (.leaf x) (live \ {.leaf tt})

theorem replaceLeaf_rest (h : Heap) (tt x : ℕ) :
    (replaceLeaf h tt x).data = h.data ∧ (replaceLeaf h tt x).nodeB = h.nodeB ∧
      (replaceLeaf h tt x).leafKey = h.leafKey ∧ (replaceLeaf h tt x).nodeP = h.nodeP := by
  refine ⟨(data_setChild _ _ _ _).trans rfl, (nodeB_setChild _ _ _ _).trans rfl,
    (leafKey_setChild _ _ _ _).trans rfl, ?_⟩
  exact funext fun i => parent_setChild _ _ _ _ (.node i)

theorem moved_replaceLeaf (h : Heap) (live : Set Ptr) (pre : ℕ → Key) (tt x : ℕ) :
    Moved h (replaceLeaf h tt x) live (replaceLive live tt x) pre pre id := by
  obtain ⟨rdata, rB, rK, rP⟩ := replaceLeaf_rest h tt x
  have hmem : ∀ {i}, .node i ∈ replaceLive live tt x ↔ .node i ∈ live := by
    intro i
    constructor
    · rintro (h | ⟨h, -⟩)
      · exact absurd h nofun
      · exact h
    · exact fun h => .inr ⟨h, nofun⟩
  refine ⟨⟨fun hj => hmem.mp hj, fun _ _ h => h, fun hi => ⟨_, hmem.mpr hi, rfl⟩,
    fun _ => congrFun rB _, fun _ hj0 => ?_, fun _ => congrFun (congrArg Data.nodeMk rdata) _⟩,
    fun _ => rfl, congrArg Data.leafMask rdata, congrArg Data.leafB rdata, rK,
    congrArg Data.leafMk rdata, congrArg Data.rmB rdata, congrArg Data.rmMask rdata,
    congrArg Data.rmRefs rdata, congrArg Data.rmNext rdata, congrArg Data.mfresh rdata⟩
  rw [rB, rP]
  exact ⟨hj0, rfl⟩

theorem Shape.replaceLeaf (hs : Shape off L h live pre) (htt : .leaf tt ∈ live) (h0 : tt ≠ 0)
    (h1 : tt ≠ 1) (hx : .leaf x ∉ live) (hkey : SameBytes off L (h.leafKey x) (h.leafKey tt)) :
    Shape off L (replaceLeaf h tt x) (replaceLive live tt x) pre := by
  obtain ⟨-, hB, hK, hNP⟩ := replaceLeaf_rest h tt x
  have ht := hs.leafP_mem htt
  have hagree := agree_mul_iff.mpr hkey
  obtain ⟨s0, hs0⟩ := hs.up_child htt (by rintro ⟨⟩)
  have hs0' : child h (h.leafP tt) s0 = .leaf tt := hs0
  have hside : decide (h.nodeL (h.leafP tt) ≠ .leaf tt) = s0 := by
    have hb := hs.child_bit ht
    cases s0 with
    | false => exact decide_eq_false fun h => h hs0'
    | true =>
      refine decide_eq_true fun hf => ?_
      have hf' : child h (h.leafP tt) false = .leaf tt := hf
      have h₁ := hb true
      have h2 := hb false
      rw [hs0'] at h₁
      rw [hf', h₁] at h2
      exact absurd h2 (by decide)
  have hchild : ∀ j s, child (Radix.replaceLeaf h tt x) j s =
      if j = h.leafP tt ∧ s = s0 then .leaf x else child h j s := by
    intro j s
    unfold Radix.replaceLeaf
    rw [child_setChild, hside]
    rfl
  have hparent : ∀ y, parent (Radix.replaceLeaf h tt x) y =
      if y = .leaf x then h.leafP tt else parent h y := by
    intro y
    unfold Radix.replaceLeaf
    rw [parent_setChild]
    cases y with
    | leaf j => simp [parent, update_apply]
    | node i => simp [parent]
  have hkeyOf : ∀ y, keyOf (Radix.replaceLeaf h tt x) pre y = keyOf h pre y := by
    rintro (j | i)
    · exact congrFun hK j
    · rfl
  have hmem : ∀ {y}, y ∈ live → y ≠ .leaf tt → y ∈ replaceLive live tt x := fun hy hyt =>
    .inr ⟨hy, hyt⟩
  -- `tt` is the child on its side only
  have honly : ∀ {j s}, .node j ∈ live → child h j s = .leaf tt → j = h.leafP tt ∧ s = s0 := by
    intro j s hj hc
    have hp := hs.child_parent hj s
    have hb := hs.child_bit hj s
    rw [hc] at hp hb
    have hp' : h.leafP tt = j := hp
    refine ⟨hp'.symm, ?_⟩
    have hb0 := hs.child_bit ht s0
    rw [hs0', hp', hb] at hb0
    exact hb0
  refine Shape.of_hangs (hmem hs.top_mem (by rintro ⟨⟩)) ?_ ?_ (hmem hs.zeros_mem ?_) ?_
    (hmem hs.ones_mem ?_) ?_ ?_ ?_
  · rw [hNP]; exact hs.top_parent
  · rw [hB]; exact hs.top_bit
  · exact fun h => h0 (Ptr.leaf.inj h).symm
  · rw [hK]; exact hs.zeros_key
  · exact fun h => h1 (Ptr.leaf.inj h).symm
  · rw [hK]; exact hs.ones_key
  · rintro j s (hj | ⟨hj, -⟩)
    · cases hj
    · rw [hB, hchild]
      refine ⟨hs.bit_lt hj, ?_⟩
      by_cases hjs : j = h.leafP tt ∧ s = s0
      · rw [if_pos hjs]
        obtain ⟨rfl, rfl⟩ := hjs
        have hc := hs.hangs ht s
        rw [hs0'] at hc
        have hlt := hs.bit_lt ht
        refine ⟨.inl rfl, by rw [hparent, if_pos rfl], ?_, ?_, (by rintro k ⟨⟩)⟩
        · rw [Under, hkeyOf, hB]
          exact hc.under.trans (hagree.symm.mono (Nat.le_of_lt hlt))
        · rw [hkeyOf, hB]
          exact (hagree _ (hs.top_le ht) hlt).trans hc.bit
      · rw [if_neg hjs]
        have hc := hs.hangs hj s
        have hct : child h j s ≠ .leaf tt := fun heq => hjs (honly hj heq)
        have hcx : child h j s ≠ .leaf x := fun heq => hx (heq ▸ hc.mem)
        refine ⟨hmem hc.mem hct, ?_, ?_, ?_, ?_⟩
        · rw [hparent, if_neg hcx]; exact hc.parent_eq
        · rw [Under, hkeyOf, hB]; exact hc.under
        · rw [hkeyOf, hB]; exact hc.bit
        · rw [hB]; exact hc.lt
  · rintro y (rfl | ⟨hy, hyt⟩) hy0
    · rw [hparent, if_pos rfl]
      exact ⟨hmem ht (by rintro ⟨⟩), s0, by rw [hchild, if_pos ⟨rfl, rfl⟩]⟩
    · have hyx : y ≠ .leaf x := fun h => hx (h ▸ hy)
      rw [hparent, if_neg hyx]
      have hpl := hs.up_mem hy hy0
      obtain ⟨s, hs'⟩ := hs.up_child hy hy0
      refine ⟨hmem hpl (by rintro ⟨⟩), s, ?_⟩
      rw [hchild, if_neg, hs']
      rintro ⟨h₁, h2⟩
      rw [h₁, h2, hs0'] at hs'
      exact hyt hs'.symm

/-! ## Taking out a leaf and its parent -/

/-- The other child of the parent of `tt` in the place of the parent.
Source: rn_delete -/
def unsplice (h : Heap) (tt : ℕ) (y : Ptr) : Heap :=
  let t := h.leafP tt
  let p := h.nodeP t
  setParent (setChild h p (decide (h.nodeR p = .node t)) y) y p

/-- The pointers without a leaf and its parent. -/
def dropLive (live : Set Ptr) (tt t : ℕ) : Set Ptr := live \ {.leaf tt, .node t}

theorem node_mem_dropLive : .node j ∈ dropLive live tt t ↔ .node j ∈ live ∧ j ≠ t := by
  simp [dropLive]

theorem leaf_mem_dropLive : .leaf j ∈ dropLive live tt t ↔ .leaf j ∈ live ∧ j ≠ tt := by
  simp [dropLive]

theorem unsplice_rest (h : Heap) (tt : ℕ) (y : Ptr) :
    (unsplice h tt y).data = h.data ∧ (unsplice h tt y).nodeB = h.nodeB ∧
      (unsplice h tt y).leafKey = h.leafKey := by
  exact ⟨(data_setParent _ _ _).trans (data_setChild _ _ _ _),
    (nodeB_setParent _ _ _).trans (nodeB_setChild _ _ _ _),
    (leafKey_setParent _ _ _).trans (leafKey_setChild _ _ _ _)⟩

theorem Shape.leafP_ne_zero (hs : Shape off L h live pre) (htt : .leaf tt ∈ live) (h0 : tt ≠ 0)
    (h1 : tt ≠ 1) : h.leafP tt ≠ 0 := by
  intro ht
  obtain ⟨s, hs'⟩ := hs.up_child htt nofun
  have hs0 : child h 0 s = .leaf tt := ht ▸ hs'
  -- the leaf of `rn_zeros` or `rn_ones` is on the same side
  obtain ⟨a, ha, ha', hbit⟩ : ∃ a, .leaf a ∈ live ∧ a ≠ tt ∧ bitAt (h.leafKey a) (h.nodeB 0) = s := by
    cases s with
    | false =>
      refine ⟨0, hs.zeros_mem, h0.symm, ?_⟩
      rw [hs.zeros_key]
      exact bitAt_of_zero rfl
    | true =>
      refine ⟨1, hs.ones_mem, h1.symm, ?_⟩
      rw [hs.ones_key]
      exact bitAt_of_ones rfl
  obtain ⟨hc⟩ | ⟨hc⟩ := hs.finds_of_under hs.top_mem ha (hs.under_top _) fun _ _ _ => rfl
  rw [childOf_eq, hbit, hs0] at hc
  cases hc
  exact ha' rfl

theorem Shape.unsplice (hs : Shape off L h live pre) (htt : .leaf tt ∈ live) (h0 : tt ≠ 0)
    (h1 : tt ≠ 1) (hy : sibling h (h.leafP tt) tt = y) :
    Shape off L (unsplice h tt y) (dropLive live tt (h.leafP tt)) pre ∧
      ∀ j, .node j ∈ dropLive live tt (h.leafP tt) →
        (Radix.unsplice h tt y).nodeP j = if y = .node j then h.nodeP (h.leafP tt) else h.nodeP j := by
  obtain ⟨-, hB, hK⟩ := unsplice_rest h tt y
  have ht := hs.leafP_mem htt
  have ht0 := hs.leafP_ne_zero htt h0 h1
  obtain ⟨t, htdef⟩ : ∃ t, h.leafP tt = t := ⟨_, rfl⟩
  rw [htdef] at ht ht0 hy ⊢
  have htne : Ptr.node t ≠ .node 0 := fun h => ht0 (Ptr.node.inj h)
  have hp := hs.parent_mem ht
  have hpt := hs.parent_lt ht ht0
  obtain ⟨p, hpdef⟩ : ∃ p, h.nodeP t = p := ⟨_, rfl⟩
  rw [hpdef] at hp hpt ⊢
  have hpne : p ≠ t := by
    rintro rfl
    exact Nat.lt_irrefl _ hpt
  -- the sides of `tt` and of `t`
  obtain ⟨s, hst, hsy⟩ := hs.sibling_eq htt
  rw [htdef] at hst hsy
  rw [hsy] at hy
  obtain ⟨s0, hs0⟩ := hs.up_child ht htne
  have hs0' : child h p s0 = .node t := hpdef ▸ hs0
  have hside : decide (h.nodeR p = .node t) = s0 := by
    have hb := hs.child_bit hp
    cases s0 with
    | true => exact decide_eq_true hs0'
    | false =>
      refine decide_eq_false fun hf => ?_
      have hf' : child h p true = .node t := hf
      have h₁ := hb true
      have h2 := hb false
      rw [hs0'] at h2
      rw [hf', h2] at h₁
      exact absurd h₁ (by decide)
  have hyc := hs.hangs ht (!s)
  rw [hy] at hyc
  have hchild : ∀ j s, child (Radix.unsplice h tt y) j s =
      if j = p ∧ s = s0 then y else child h j s := by
    intro j s
    unfold Radix.unsplice
    simp only [htdef, hpdef]
    rw [child_setParent, child_setChild, hside]
  have hparent : ∀ z, parent (Radix.unsplice h tt y) z = if z = y then p else parent h z := by
    intro z
    unfold Radix.unsplice
    simp only [htdef, hpdef]
    rw [parent_setParent, parent_setChild]
  have hkeyOf : ∀ z, keyOf (Radix.unsplice h tt y) pre z = keyOf h pre z := by
    rintro (j | i)
    · exact congrFun hK j
    · rfl
  have hmem : ∀ {z}, z ∈ live → z ≠ .leaf tt → z ≠ .node t → z ∈ dropLive live tt t := by
    rintro z hz h₁ h2
    exact ⟨hz, by rintro (h | h); exacts [h₁ h, h2 h]⟩
  have hyt : y ≠ .node t := by
    intro heq
    exact Nat.lt_irrefl _ (hyc.lt t heq)
  have hytt : y ≠ .leaf tt := by
    intro heq
    have h₁ := hs.child_bit ht s
    have h2 := hyc.bit
    rw [hst] at h₁
    rw [heq, h₁] at h2
    cases s <;> exact absurd h2 (by decide)
  have hpmem : .node p ∈ dropLive live tt t := hmem hp (by rintro ⟨⟩) fun h => hpne (Ptr.node.inj h)
  -- below `t` is below `p`, on the side of `t`
  have htc := hs.hangs hp s0
  rw [hs0'] at htc
  have hup : Under off h pre p (keyOf h pre y) :=
    htc.under.trans (hyc.under.mono (Nat.le_of_lt hpt))
  have hbit : bitAt (keyOf h pre y) (h.nodeB p) = s0 :=
    (hyc.under _ (hs.top_le hp) hpt).symm.trans htc.bit
  refine ⟨Shape.of_hangs (hmem hs.top_mem (by rintro ⟨⟩) htne.symm) ?_ ?_
    (hmem hs.zeros_mem ?_ (by rintro ⟨⟩)) ?_ (hmem hs.ones_mem ?_ (by rintro ⟨⟩)) ?_ ?_ ?_, ?_⟩
  · have h' := hparent (.node 0)
    have hne : Ptr.node 0 ≠ y := by
      intro heq
      have hlt := hyc.lt 0 heq.symm
      have hle := hs.top_le ht
      rw [hs.top_bit] at hlt
      omega
    rw [if_neg hne] at h'
    exact h'.trans hs.top_parent
  · rw [hB]; exact hs.top_bit
  · exact fun h => h0 (Ptr.leaf.inj h).symm
  · rw [hK]; exact hs.zeros_key
  · exact fun h => h1 (Ptr.leaf.inj h).symm
  · rw [hK]; exact hs.ones_key
  · rintro j s' ⟨hj, hjne⟩
    have hjt : j ≠ t := fun h => hjne (.inr (congrArg Ptr.node h))
    rw [hB, hchild]
    refine ⟨hs.bit_lt hj, ?_⟩
    by_cases hjs : j = p ∧ s' = s0
    · rw [if_pos hjs]
      obtain ⟨rfl, rfl⟩ := hjs
      refine ⟨hmem hyc.mem hytt hyt, by rw [hparent, if_pos rfl], ?_, ?_, fun k hk => ?_⟩
      · rw [Under, hkeyOf, hB]; exact hup
      · rw [hkeyOf, hB]; exact hbit
      · rw [hB]; exact hpt.trans (hyc.lt k hk)
    · rw [if_neg hjs]
      have hc := hs.hangs hj s'
      have hctt : child h j s' ≠ .leaf tt := by
        intro heq
        have hp' := hc.parent_eq
        rw [heq] at hp'
        exact hjt ((show h.leafP tt = j from hp').symm.trans htdef)
      have hct : child h j s' ≠ .node t := by
        intro heq
        have hp' := hc.parent_eq
        have hb' := hc.bit
        rw [heq] at hp' hb'
        have hpj : p = j := hpdef.symm.trans hp'
        subst hpj
        exact hjs ⟨rfl, hb'.symm.trans htc.bit⟩
      have hcy : child h j s' ≠ y := by
        intro heq
        have hp' := hc.parent_eq
        rw [heq, hyc.parent_eq] at hp'
        exact hjt hp'.symm
      refine ⟨hmem hc.mem hctt hct, ?_, ?_, ?_, ?_⟩
      · rw [hparent, if_neg hcy]; exact hc.parent_eq
      · rw [Under, hkeyOf, hB]; exact hc.under
      · rw [hkeyOf, hB]; exact hc.bit
      · rw [hB]; exact hc.lt
  · rintro z ⟨hz, hzne⟩ hz0
    rw [hparent]
    by_cases hzy : z = y
    · rw [if_pos hzy]
      exact ⟨hpmem, s0, by rw [hchild, if_pos ⟨rfl, rfl⟩, hzy]⟩
    rw [if_neg hzy]
    have hpl := hs.up_mem hz hz0
    obtain ⟨s', hs'⟩ := hs.up_child hz hz0
    -- the children of `t` are `tt` and `y`
    have hzt : parent h z ≠ t := by
      intro heq
      rw [heq] at hs'
      by_cases hss : s' = s
      · rw [hss, hst] at hs'
        exact hzne (.inl hs'.symm)
      have hss' : s' = !s := by
        revert hss
        cases s' <;> cases s <;> decide
      rw [hss', hy] at hs'
      exact hzy hs'.symm
    refine ⟨hmem hpl (by rintro ⟨⟩) fun h => hzt (Ptr.node.inj h), s', ?_⟩
    rw [hchild, if_neg, hs']
    rintro ⟨h₁, h2⟩
    rw [h₁, h2, hs0'] at hs'
    exact hzne (.inr hs'.symm)
  · intro j _
    have h' := hparent (.node j)
    by_cases hj : y = .node j
    · rw [if_pos hj]
      rw [if_pos hj.symm] at h'
      exact h'
    · rw [if_neg hj]
      rw [if_neg fun h => hj h.symm] at h'
      exact h'

end Bsd386.Net.Radix
